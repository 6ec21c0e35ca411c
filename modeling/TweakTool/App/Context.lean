import TweakTool.App.Model

/-! # Contexts

`tweakappcommon.c` and `tweakappfeatures.c`: what server and client contexts have in common. Each
function takes the lock of the model once; its body between lock and unlock is given here as a
function of the state it finds, together with what it decides to do after the unlock. -/

namespace TweakTool.App

/-! ## Features -/

structure Features where
  vectors : Bool
  deriving DecidableEq

namespace Features

def initMinimal : Features := ⟨false⟩

def initDefault : Features := ⟨true⟩

def combine (a b : Features) : Features := ⟨a.vectors && b.vectors⟩

def checkTypeCompatibility (features : Features) : VariantType → Bool
  | .null => false
  | .bool | .num _ => true
  | .string | .vector _ => features.vectors

theorem checkTypeCompatibility_scalar (features : Features) {t : VariantType}
    (h : t.isBoolOrInteger = true) : features.checkTypeCompatibility t = true := by
  cases t with
  | bool | num t => rfl
  | null | string | vector t => cases h

end Features

def checkValueCompatibility (sample value : Variant) : Bool :=
  if sample.type ≠ value.type then false
  else
    match sample.type with
    | .null => false
    | .bool | .num _ | .string => true
    | .vector _ => sample.bufferSize == value.bufferSize

/-! ## Sections -/

structure Context where
  modelImpl : ModelImpl
  connected : Bool
  remotePeerFeatures : Features
  deriving DecidableEq

inductive AppErrorCode where
  | success | itemNotFound | typeMismatch | peerDisconnected
  deriving DecidableEq

namespace Context

/-- A context out of `calloc` and `tweak_app_context_private_initialize_base`. -/
def init : Context := ⟨.empty, false, ⟨false⟩⟩

def find? (c : Context) (id : TweakId) : Option Item := c.modelImpl.model.find? id

/-- The locked part of `tweak_app_context_private_item_replace_current_value`, with the decision to
push the change. After the swap it is the type of the *old* value that is looked at. -/
def itemReplaceCurrentValue (c : Context) (id : TweakId) (value : Variant) :
    AppErrorCode × Bool × ModelImpl :=
  match c.find? id with
  | some item =>
    if tweakVariantIsEqual item.currentValue value then (.success, false, c.modelImpl)
    else
      (.success,
        c.remotePeerFeatures.checkTypeCompatibility item.currentValue.type && c.connected,
        c.modelImpl.setCurrentValue id value)
  | none => (.itemNotFound, false, c.modelImpl)

def itemCloneCurrentValue (c : Context) (id : TweakId) : Option Variant :=
  (c.find? id).map (·.currentValue)

end Context

end TweakTool.App

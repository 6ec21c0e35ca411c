import TweakTool.Lib.Bytes
import TweakTool.Lib.Run

/-! # Variant strings

`string.h` and `tweakstring.c`: a string with a small in-place buffer. The union `buffers` is
either the text itself or a pointer to a heap block, and the same number `capacity` bounds the
storage and tells the two apart.

The union is modelled by its bytes (`smallBuffer`), together with the heap block these bytes point
to if a pointer was the last thing stored there (`largeBuffer`). Reading the member that was not
written last is possible, as in C: it yields the bytes of a pointer. -/

namespace TweakTool.Common

open TweakTool.Lib

/-- `TWEAK_VARIANT_INLINE_STRING_SIZE`, 16 · 8. -/
def inlineStringSize : Nat := 128

/-- `SIZE_MAX + 1`. -/
def sizeModulus : Nat := 2 ^ 64

def intMax : Nat := 2 ^ 31 - 1

structure VariantString where
  length : Nat
  capacity : Nat
  smallBuffer : Bytes
  largeBuffer : Option Bytes

namespace VariantString

def empty : VariantString where
  length := 0
  capacity := 0
  smallBuffer := List.replicate inlineStringSize 0
  largeBuffer := none

end VariantString

/-! ## The C library

What the standard leaves open is a parameter of every operation that meets it. -/

structure CLibrary where
  /-- The bytes of the union after the pointer to a new block was stored in it. -/
  pointer : Block inlineStringSize
  fresh : Nat → UInt8 -- what new heap memory contains
  failed : Block inlineStringSize -- what a `vsnprintf` that fails leaves in its buffer

namespace CLibrary

/-- A block of `malloc`; allocations succeed. -/
def malloc (lib : CLibrary) (size : Nat) : Bytes := (List.range size).map lib.fresh

/-- The block of `realloc`: the old contents as far as they fit. -/
def realloc (lib : CLibrary) (block : Bytes) (size : Nat) : Bytes :=
  block.take size ++ (lib.malloc size).drop block.length

end CLibrary

/-- `strncpy`: the text, then zeros up to `n` bytes. -/
def strncpy (dest : Bytes) (text : CString) (n : Nat) : Bytes :=
  blit dest 0 ((text.val ++ List.replicate n 0).take n)

/-- What `vsnprintf` writes where the formatted text has at most `INT_MAX` bytes. -/
def vsnprintf (dest : Bytes) (size : Nat) (text : CString) : Bytes :=
  blit dest 0 (text.val.take (size - 1) ++ [0])

/-! ## Operations -/

def tweakVariantIsSmallString (s : VariantString) : Bool := decide (s.capacity ≤ inlineStringSize)

def tweakVariantDestroyString (_ : VariantString) : VariantString := .empty

/-- `tweak_variant_string_c_str`, as the text found there. -/
def tweakVariantStringCStr (s : VariantString) : Option CString :=
  if tweakVariantIsSmallString s then cText s.smallBuffer else s.largeBuffer.bind cText

namespace VariantString

/-- `if (string->capacity == 0) string->capacity = TWEAK_VARIANT_INLINE_STRING_SIZE`. -/
def init (s : VariantString) : VariantString :=
  { s with capacity := if s.capacity = 0 then inlineStringSize else s.capacity }

/-- Store the pointer to a new block of `capacity` bytes in the union. -/
def store (s : VariantString) (lib : CLibrary) (block : Bytes) (capacity : Nat) : VariantString :=
  { s with capacity := capacity, smallBuffer := lib.pointer.val, largeBuffer := some block }

/-- The larger block of `tweak_string_append`: a new one with a copy of the inline text, or the
old heap block grown by `realloc`. -/
def moved (s : VariantString) (lib : CLibrary) (capacity : Nat) : Bytes :=
  if tweakVariantIsSmallString s then
    blit (lib.malloc capacity) 0 (s.smallBuffer.take s.length ++ [0])
  else lib.realloc (s.largeBuffer.getD []) capacity

/-- Write through `destination`. The bytes of the small buffer are those of the pointer. -/
def write (s : VariantString) (f : Bytes → Bytes) : VariantString :=
  if tweakVariantIsSmallString s then { s with smallBuffer := f s.smallBuffer, largeBuffer := none }
  else { s with largeBuffer := s.largeBuffer.map f }

end VariantString

/-- `desired_capacity * 3 / 2` in `size_t`. -/
def overcommittedCapacity (desiredCapacity : Nat) : Nat := desiredCapacity * 3 % sizeModulus / 2

def tweakAssignString (lib : CLibrary) (s : VariantString) : Option CString → VariantString
  | none => tweakVariantDestroyString s
  | some arg =>
    let s := s.init
    let desiredCapacity := (arg.val.length + 1) % sizeModulus
    let s :=
      if s.capacity < desiredCapacity then
        let capacity := overcommittedCapacity desiredCapacity
        s.store lib (lib.malloc capacity) capacity
      else s
    { s.write (strncpy · arg s.capacity) with length := arg.val.length }

def tweakStringAppend (lib : CLibrary) (s : VariantString) (arg : CString) : VariantString :=
  let s := s.init
  let length := (s.length + arg.val.length) % sizeModulus
  let desiredCapacity := (length + 1) % sizeModulus
  let grown :=
    if s.capacity < desiredCapacity then
      let capacity := overcommittedCapacity desiredCapacity
      s.store lib (s.moved lib capacity) capacity
    else s
  { grown.write (blit · s.length arg.terminated) with length := length }

/-- `tweak_string_format`, `text` being what the format and its arguments spell out. A text of
more than `INT_MAX` bytes makes `vsnprintf` return `-1`, and then `size` is 0. For one of exactly
`INT_MAX` bytes the sum `vsnprintf(...) + 1` overflows, which counts as a failure as well. -/
def tweakStringFormat (lib : CLibrary) (_ : VariantString) (text : CString) : VariantString :=
  if intMax ≤ text.val.length then
    { VariantString.empty with
      length := sizeModulus - 1
      capacity := inlineStringSize
      smallBuffer := lib.failed.val }
  else
    let size := text.val.length + 1
    if size ≤ inlineStringSize then
      { VariantString.empty with
        length := text.val.length
        capacity := inlineStringSize
        smallBuffer := vsnprintf VariantString.empty.smallBuffer inlineStringSize text }
    else
      { VariantString.empty.store lib (vsnprintf (lib.malloc size) size text) size with
        length := text.val.length }

def tweakVariantStringCopy (lib : CLibrary) (arg : VariantString) : VariantString :=
  if tweakVariantIsSmallString arg then arg
  else
    let capacity := (arg.length + 1) % sizeModulus
    let block := strncpy (lib.malloc capacity) ((tweakVariantStringCStr arg).getD .empty) capacity
    { VariantString.empty.store lib block capacity with length := arg.length }

/-! ## Any number of objects -/

namespace Strings

/-- One call on the objects of a program, which are numbered. -/
inductive Action where
  | assign (lib : CLibrary) (i : Nat) (arg : Option CString)
  | append (lib : CLibrary) (i : Nat) (arg : CString)
  | format (lib : CLibrary) (i : Nat) (text : CString)
  /-- `objects[dst] = tweak_variant_string_copy(&objects[src])`. -/
  | copy (lib : CLibrary) (dst src : Nat)
  | swap (i j : Nat)
  | destroy (i : Nat)

/-- Exchange two entries: the body of `tweak_variant_swap_string`. -/
def exchange {V : Type} (objects : Nat → V) (i j : Nat) : Nat → V :=
  Function.update (Function.update objects i (objects j)) j (objects i)

def step (objects : Nat → VariantString) : Action → Option (Nat → VariantString)
  | .assign lib i arg => some (Function.update objects i (tweakAssignString lib (objects i) arg))
  | .append lib i arg => some (Function.update objects i (tweakStringAppend lib (objects i) arg))
  | .format lib i text => some (Function.update objects i (tweakStringFormat lib (objects i) text))
  | .copy lib dst src => some (Function.update objects dst (tweakVariantStringCopy lib (objects src)))
  | .swap i j => some (exchange objects i j)
  | .destroy i => some (Function.update objects i (tweakVariantDestroyString (objects i)))

/-- The same calls on texts: what the objects stand for. -/
def abstractStep (texts : Nat → CString) : Action → Nat → CString
  | .assign _ i arg => Function.update texts i (arg.getD .empty)
  | .append _ i arg => Function.update texts i ((texts i).append arg)
  | .format _ i text => Function.update texts i text
  | .copy _ dst src => Function.update texts dst (texts src)
  | .swap i j => exchange texts i j
  | .destroy i => Function.update texts i .empty

/-- The texts after a list of calls on objects that start empty. -/
def abstractTexts (as : List Action) : Nat → CString := as.foldl abstractStep fun _ => .empty

/-- The object is a faithful string with the text `t`. An object that was never assigned has
capacity 0, which the operations read as the inline size. -/
structure Implements (s : VariantString) (t : CString) : Prop where
  text : tweakVariantStringCStr s = some t
  length : s.length = t.val.length
  fits : t.val.length + 1 ≤ s.capacity ∨ s.capacity = 0 ∧ t = .empty
  /-- `tweak_variant_is_small_string` names the storage in use. -/
  storage : tweakVariantIsSmallString s = true ↔ s.largeBuffer = none

/-- The growth of a string with `capacity` to hold `length` bytes stays inside `size_t`. -/
def GrowthFits (capacity length : Nat) : Prop :=
  capacity < length + 1 → (length + 1) * 3 < sizeModulus

/-- The calls the objects survive. A copied heap string is long enough not to be taken for an
inline one, the size of a formatted text is an `int`, and growing does not wrap around. -/
def Meets (objects : Nat → VariantString) : Action → Prop
  | .assign _ i (some arg) => GrowthFits (objects i).init.capacity arg.val.length
  | .append _ i arg =>
    GrowthFits (objects i).init.capacity ((objects i).length + arg.val.length)
  | .format _ _ text => text.val.length < intMax
  | .copy _ _ src =>
    (objects src).capacity ≤ inlineStringSize ∨ inlineStringSize ≤ (objects src).length
  | .assign _ _ none | .swap _ _ | .destroy _ => True

instance (objects : Nat → VariantString) : (a : Action) → Decidable (Meets objects a)
  | .assign _ _ (some _) | .append _ _ _ => inferInstanceAs (Decidable (_ < _ → _ < _))
  | .format _ _ _ => inferInstanceAs (Decidable (_ < _))
  | .copy _ _ _ => inferInstanceAs (Decidable (_ ≤ _ ∨ _ ≤ _))
  | .assign _ _ none | .swap _ _ | .destroy _ => .isTrue trivial

end Strings

/-! ## Storage -/

/-- The block begins with the text and its terminator. -/
def Holds (block : Bytes) (t : CString) : Prop := ∃ rest, block = t.val ++ 0 :: rest

namespace Holds

variable {block : Bytes} {t : CString}

private theorem cText_eq (h : Holds block t) : cText block = some t := by
  obtain ⟨rest, rfl⟩ := h
  exact cText_append t rest

theorem length_lt (h : Holds block t) : t.val.length + 1 ≤ block.length := by
  obtain ⟨rest, rfl⟩ := h
  rw [List.length_append, List.length_cons]
  omega

/-- A text written over its own terminator continues it. -/
theorem blit_terminated (h : Holds block t) {arg : CString}
    (hroom : t.val.length + arg.val.length + 1 ≤ block.length) :
    Holds (blit block t.val.length arg.terminated) (t.append arg) := by
  obtain ⟨rest, rfl⟩ := h
  rw [List.length_append] at hroom
  rw [blit_append (by rw [CString.length_terminated]; omega)]
  refine ⟨(0 :: rest).drop arg.terminated.length, ?_⟩
  simp [CString.append, CString.terminated]

end Holds

variable {block : Bytes} {t : CString}

/-- A text and its terminator written at the start of a block. -/
theorem holds_blit_zero {bytes : Bytes} (hroom : bytes.length ≤ block.length) (h : Holds bytes t) :
    Holds (blit block 0 bytes) t := by
  obtain ⟨rest, rfl⟩ := h
  rw [blit_zero hroom]
  exact ⟨rest ++ block.drop (t.val ++ 0 :: rest).length, by simp⟩

private theorem length_strncpy (dest : Bytes) (t : CString) (n : Nat) :
    (strncpy dest t n).length = dest.length := length_blit ..

/-- `strncpy` with room for the terminator. -/
theorem holds_strncpy {dest : Bytes} {n : Nat} (hfits : t.val.length + 1 ≤ n)
    (hroom : n ≤ dest.length) : Holds (strncpy dest t n) t := by
  refine holds_blit_zero ?_ ⟨List.replicate (n - t.val.length - 1) 0, ?_⟩
  · rw [List.length_take]
    omega
  · have hpad : n - t.val.length = n - t.val.length - 1 + 1 := by omega
    rw [List.take_append, List.take_of_length_le (by omega), List.take_replicate,
      Nat.min_eq_left (by omega), hpad, List.replicate_succ, Nat.add_sub_cancel]

private theorem holds_vsnprintf {dest : Bytes} {size : Nat} (hfits : t.val.length + 1 ≤ size)
    (hroom : size ≤ dest.length) : Holds (vsnprintf dest size t) t := by
  refine holds_blit_zero ?_ ⟨[], ?_⟩
  · rw [List.length_append, List.length_take, List.length_singleton]
    omega
  · rw [List.take_of_length_le (by omega)]

@[simp] theorem length_malloc (lib : CLibrary) (size : Nat) : (lib.malloc size).length = size := by
  simp [CLibrary.malloc]

theorem length_realloc (lib : CLibrary) (block : Bytes) (size : Nat) :
    (lib.realloc block size).length = size := by
  rw [CLibrary.realloc, List.length_append, List.length_take, List.length_drop, length_malloc]
  omega

/-- Growing a block keeps its text. -/
theorem Holds.realloc (h : Holds block t) (lib : CLibrary) {size : Nat}
    (hsize : block.length ≤ size) : Holds (lib.realloc block size) t := by
  obtain ⟨rest, rfl⟩ := h
  rw [CLibrary.realloc, List.take_of_length_le hsize]
  exact ⟨rest ++ (lib.malloc size).drop (t.val ++ 0 :: rest).length, by simp⟩

namespace VariantString

variable {s : VariantString}

/-- The block that `destination` points to. -/
def storage (s : VariantString) : Bytes :=
  if tweakVariantIsSmallString s then s.smallBuffer else s.largeBuffer.getD []

/-- The capacity is the size of the storage in use, and tells which storage that is. -/
structure WellFormed (s : VariantString) : Prop where
  kind : s.capacity = inlineStringSize ∧ s.largeBuffer = none ∨
    inlineStringSize < s.capacity ∧ s.largeBuffer ≠ none
  size : s.storage.length = s.capacity
  bound : s.capacity < sizeModulus

theorem WellFormed.inlineStringSize_le (h : s.WellFormed) : inlineStringSize ≤ s.capacity := by
  rcases h.kind with ⟨hcap, _⟩ | ⟨hcap, _⟩ <;> omega

private theorem WellFormed.isSmall_iff (h : s.WellFormed) :
    tweakVariantIsSmallString s = true ↔ s.largeBuffer = none := by
  rw [tweakVariantIsSmallString, decide_eq_true_iff]
  rcases h.kind with ⟨hcap, hnone⟩ | ⟨hcap, hsome⟩
  · simp only [hnone, hcap, Nat.le_refl]
  · simp only [hsome, iff_false, Nat.not_le, hcap]

/-- What a read of the string sees is the text in the storage. -/
theorem cStr_eq (s : VariantString) : tweakVariantStringCStr s = cText s.storage := by
  rw [tweakVariantStringCStr, storage]
  by_cases hsmall : tweakVariantIsSmallString s = true
  · rw [if_pos hsmall, if_pos hsmall]
  · rw [if_neg hsmall, if_neg hsmall]
    cases s.largeBuffer <;> rfl

theorem capacity_write (f : Bytes → Bytes) : (s.write f).capacity = s.capacity := by
  rw [write]
  split <;> rfl

private theorem storage_write (h : s.WellFormed) (f : Bytes → Bytes) :
    (s.write f).storage = f s.storage := by
  rw [storage, tweakVariantIsSmallString, capacity_write, ← tweakVariantIsSmallString, storage, write]
  by_cases hsmall : tweakVariantIsSmallString s = true
  · simp only [hsmall, if_true]
  · obtain ⟨block, hblock⟩ := Option.ne_none_iff_exists'.mp (fun hn => hsmall (h.isSmall_iff.mpr hn))
    simp only [hsmall, hblock, Bool.false_eq_true, if_false, Option.map_some, Option.getD_some]

/-- Writing in place keeps the shape of the object. -/
theorem WellFormed.write (h : s.WellFormed) {f : Bytes → Bytes}
    (hf : ∀ block, (f block).length = block.length) : (s.write f).WellFormed := by
  refine ⟨?_, ?_, ?_⟩
  · rw [capacity_write, VariantString.write]
    by_cases hsmall : tweakVariantIsSmallString s = true
    · have hcap := h.kind
      rw [h.isSmall_iff.mp hsmall] at hcap
      simpa [hsmall] using hcap
    · simpa [hsmall] using h.kind
  · rw [storage_write h, hf, capacity_write, h.size]
  · rw [capacity_write]
    exact h.bound

/-- An object that has just been given a heap block. -/
theorem wellFormed_store (s : VariantString) (lib : CLibrary) {block : Bytes} {capacity : Nat}
    (hlarge : inlineStringSize < capacity) (hbound : capacity < sizeModulus)
    (hsize : block.length = capacity) :
    (s.store lib block capacity).WellFormed ∧ (s.store lib block capacity).storage = block := by
  have hstorage : (s.store lib block capacity).storage = block := by
    simp only [storage, tweakVariantIsSmallString, store, Nat.not_le.mpr hlarge, decide_false,
      Bool.false_eq_true, if_false, Option.getD_some]
  refine ⟨⟨.inr ⟨hlarge, Option.some_ne_none _⟩, ?_, hbound⟩, hstorage⟩
  rw [hstorage]
  exact hsize

end VariantString

/-! ## Each operation stores its text -/

/-- The invariant of an object with the text `t`: read with capacity 0 as the inline size, it is
well formed and its storage begins with the text. -/
structure Stores (s : VariantString) (t : CString) : Prop where
  shape : s.init.WellFormed
  text : Holds s.init.storage t
  length : s.length = t.val.length
  untouched : s.capacity = 0 → t = .empty

namespace Stores

variable {s : VariantString} {t : CString}

private theorem of_wellFormed (hshape : s.WellFormed) (htext : Holds s.storage t)
    (hlength : s.length = t.val.length) : Stores s t := by
  have hcap : s.capacity ≠ 0 := by
    have := hshape.inlineStringSize_le
    rw [inlineStringSize] at this
    omega
  have hinit : s.init = s := by
    rw [VariantString.init, if_neg hcap]
  exact ⟨hinit.symm ▸ hshape, hinit.symm ▸ htext, hlength, fun h => absurd h hcap⟩

theorem empty : Stores .empty .empty where
  shape := ⟨.inl ⟨rfl, rfl⟩, rfl, by decide⟩
  text := ⟨List.replicate 127 0, rfl⟩
  length := rfl
  untouched := fun _ => rfl

/-- The invariant says all that is asked of a string object. -/
theorem implements (h : Stores s t) : Strings.Implements s t := by
  have hfits := h.text.length_lt
  rw [h.shape.size] at hfits
  have hcStr := VariantString.cStr_eq s.init
  rw [h.text.cText_eq] at hcStr
  have hstorage := h.shape.isSmall_iff
  by_cases hcap : s.capacity = 0
  · -- the two readings of the capacity select the same storage
    have hsmall : tweakVariantIsSmallString s = tweakVariantIsSmallString s.init := by
      simp [tweakVariantIsSmallString, VariantString.init, hcap]
    refine ⟨?_, h.length, .inr ⟨hcap, h.untouched hcap⟩, ?_⟩
    · rw [tweakVariantStringCStr, hsmall]
      exact hcStr
    · rw [hsmall]
      exact hstorage
  · have hinit : s.init = s := by
      rw [VariantString.init, if_neg hcap]
    rw [hinit] at hfits hcStr hstorage
    exact ⟨hcStr, h.length, .inl hfits, hstorage⟩

end Stores

/-- Growing to one and a half times what is needed makes the object a heap string with room. -/
theorem overcommittedCapacity_spec {d : Nat} (hlarge : inlineStringSize < d)
    (hfits : d * 3 < sizeModulus) :
    d ≤ overcommittedCapacity d ∧ inlineStringSize < overcommittedCapacity d ∧
      overcommittedCapacity d < sizeModulus := by
  rw [overcommittedCapacity, Nat.mod_eq_of_lt hfits]
  omega

variable {s : VariantString}

/-- A write that puts the text into the storage of a well-formed object, and sets the length. -/
theorem stores_write {f : Bytes → Bytes} {length : Nat} (hshape : s.WellFormed)
    (hf : ∀ block, (f block).length = block.length) (htext : Holds (f s.storage) t)
    (hlength : length = t.val.length) : Stores { s.write f with length := length } t := by
  have hwrite := hshape.write hf
  refine .of_wellFormed ⟨hwrite.kind, hwrite.size, hwrite.bound⟩ ?_ hlength
  show Holds (s.write f).storage t
  rw [VariantString.storage_write hshape]
  exact htext

variable {lib : CLibrary}

/-- An assigned text is stored. -/
theorem stores_assign {arg : CString} (hs : Stores s t)
    (hgrow : Strings.GrowthFits s.init.capacity arg.val.length) :
    Stores (tweakAssignString lib s (some arg)) arg := by
  simp only [tweakAssignString]
  have hinline := hs.shape.inlineStringSize_le
  have hbound := hs.shape.bound
  by_cases hfit : s.init.capacity < arg.val.length + 1
  · have hmul := hgrow hfit
    obtain ⟨hle, hlarge, hmax⟩ := overcommittedCapacity_spec (Nat.lt_of_le_of_lt hinline hfit) hmul
    rw [Nat.mod_eq_of_lt (by omega), if_pos hfit]
    obtain ⟨hshape, hstorage⟩ := s.init.wellFormed_store lib hlarge hmax (length_malloc lib _)
    refine stores_write hshape (fun block => length_strncpy ..) ?_ rfl
    rw [hstorage]
    exact holds_strncpy hle (by rw [length_malloc]; exact Nat.le_refl _)
  · rw [Nat.mod_eq_of_lt (by omega), if_neg hfit]
    refine stores_write hs.shape (fun block => length_strncpy ..) ?_ rfl
    exact holds_strncpy (by omega) (Nat.le_of_eq hs.shape.size.symm)

private theorem length_moved (s : VariantString) (lib : CLibrary) (capacity : Nat) :
    (s.moved lib capacity).length = capacity := by
  rw [VariantString.moved]
  split
  · rw [length_blit, length_malloc]
  · exact length_realloc ..

/-- Either way of moving it, the text arrives in the larger block. -/
theorem holds_moved (hs : Stores s t) (lib : CLibrary) {capacity : Nat}
    (hroom : s.init.capacity ≤ capacity) : Holds (s.init.moved lib capacity) t := by
  have htext := hs.text
  have hsize := hs.shape.size
  rw [VariantString.storage] at htext hsize
  rw [VariantString.moved]
  by_cases hsmall : tweakVariantIsSmallString s.init = true
  · rw [if_pos hsmall] at htext hsize ⊢
    obtain ⟨rest, hrest⟩ := htext
    have htake : s.init.smallBuffer.take s.init.length = t.val := by
      show s.init.smallBuffer.take s.length = t.val
      rw [hrest, hs.length, List.take_left]
    rw [htake]
    refine holds_blit_zero ?_ ⟨[], rfl⟩
    rw [hrest, List.length_append, List.length_cons] at hsize
    rw [length_malloc, List.length_append, List.length_singleton]
    omega
  · rw [if_neg hsmall] at htext hsize ⊢
    exact htext.realloc lib (by omega)

/-- An appended text follows the old one. -/
theorem stores_append {arg : CString} (hs : Stores s t)
    (hgrow : Strings.GrowthFits s.init.capacity (s.length + arg.val.length)) :
    Stores (tweakStringAppend lib s arg) (t.append arg) := by
  have hinline := hs.shape.inlineStringSize_le
  have hbound := hs.shape.bound
  have hlen : (t.append arg).val.length = s.length + arg.val.length := by
    rw [hs.length]
    exact List.length_append
  have hinit : s.init.length = t.val.length := hs.length
  -- the text does not fit into the storage
  by_cases hfit : s.init.capacity < s.length + arg.val.length + 1
  · have hmul := hgrow hfit
    obtain ⟨hle, hlarge, hmax⟩ := overcommittedCapacity_spec (Nat.lt_of_le_of_lt hinline hfit) hmul
    obtain ⟨hshape, hstorage⟩ := s.init.wellFormed_store lib hlarge hmax
      (length_moved s.init lib _)
    have hmoved : Holds (s.init.moved lib (overcommittedCapacity (s.length + arg.val.length + 1))) t :=
      holds_moved hs lib (by omega)
    have hsum : (s.length + arg.val.length) % sizeModulus = s.length + arg.val.length :=
      Nat.mod_eq_of_lt (by omega)
    have hdesired : (s.length + arg.val.length + 1) % sizeModulus = s.length + arg.val.length + 1 :=
      Nat.mod_eq_of_lt (by omega)
    rw [hs.length] at *
    simp only [tweakStringAppend, hinit, hsum, hdesired, if_pos hfit]
    refine stores_write hshape (fun block => length_blit ..) ?_ hlen.symm
    rw [hstorage]
    exact hmoved.blit_terminated (by rw [length_moved]; omega)
  · have hsum : (s.length + arg.val.length) % sizeModulus = s.length + arg.val.length :=
      Nat.mod_eq_of_lt (by omega)
    have hdesired : (s.length + arg.val.length + 1) % sizeModulus = s.length + arg.val.length + 1 :=
      Nat.mod_eq_of_lt (by omega)
    rw [hs.length] at *
    simp only [tweakStringAppend, hinit, hsum, hdesired, if_neg hfit]
    refine stores_write hs.shape (fun block => length_blit ..) ?_ hlen.symm
    exact hs.text.blit_terminated (by rw [hs.shape.size]; omega)

/-- An object whose text was put into a new heap block. -/
theorem stores_store (s : VariantString) (lib : CLibrary) {capacity length : Nat}
    (hlarge : inlineStringSize < capacity) (hbound : capacity < sizeModulus)
    (hsize : block.length = capacity) (htext : Holds block t) (hlength : length = t.val.length) :
    Stores { s.store lib block capacity with length := length } t := by
  obtain ⟨hshape, hstorage⟩ := s.wellFormed_store lib hlarge hbound hsize
  refine .of_wellFormed ⟨hshape.kind, hshape.size, hshape.bound⟩ ?_ hlength
  show Holds (s.store lib block capacity).storage t
  rw [hstorage]
  exact htext

/-- A formatted text replaces the old one. -/
theorem stores_format (s : VariantString) {text : CString} (hint : text.val.length < intMax) :
    Stores (tweakStringFormat lib s text) text := by
  rw [tweakStringFormat, if_neg (by omega)]
  by_cases hsmall : text.val.length + 1 ≤ inlineStringSize
  · rw [if_pos hsmall]
    have hsize : (vsnprintf VariantString.empty.smallBuffer inlineStringSize text).length =
        inlineStringSize := by
      rw [vsnprintf, length_blit]
      rfl
    have hbound : inlineStringSize < sizeModulus := by decide
    exact .of_wellFormed ⟨.inl ⟨rfl, rfl⟩, hsize, hbound⟩
      (holds_vsnprintf hsmall (Nat.le_refl _)) rfl
  · rw [if_neg hsmall]
    have hsize : (vsnprintf (lib.malloc (text.val.length + 1)) (text.val.length + 1) text).length =
        text.val.length + 1 := by
      rw [vsnprintf, length_blit, length_malloc]
    have hbound : text.val.length + 1 < sizeModulus := by
      rw [intMax] at hint
      rw [sizeModulus]
      omega
    refine stores_store _ lib (Nat.lt_of_not_le hsmall) hbound hsize ?_ rfl
    exact holds_vsnprintf (Nat.le_refl _) (Nat.le_of_eq (length_malloc ..).symm)

/-- A copy stores the text, unless the storage is mistaken. -/
theorem stores_copy (hs : Stores s t)
    (hlong : s.capacity ≤ inlineStringSize ∨ inlineStringSize ≤ s.length) :
    Stores (tweakVariantStringCopy lib s) t := by
  rw [tweakVariantStringCopy]
  by_cases hsmall : tweakVariantIsSmallString s = true
  · rw [if_pos hsmall]
    exact hs
  · rw [if_neg hsmall, hs.implements.text]
    rw [tweakVariantIsSmallString, decide_eq_true_iff] at hsmall
    have hlength := hs.length
    have hbound := hs.shape.bound
    have hfits : t.val.length + 1 ≤ s.capacity := by
      rcases hs.implements.fits with hfits | ⟨hzero, _⟩ <;> omega
    have hinit : s.init.capacity = s.capacity := if_neg (by omega)
    have hcap : (s.length + 1) % sizeModulus = s.length + 1 := Nat.mod_eq_of_lt (by omega)
    simp only [hcap]
    have hsize : (strncpy (lib.malloc (s.length + 1)) t (s.length + 1)).length = s.length + 1 := by
      rw [length_strncpy, length_malloc]
    refine stores_store _ lib (by omega) (by omega) hsize ?_ hlength
    rw [Option.getD_some]
    exact holds_strncpy (by omega) (Nat.le_of_eq (length_malloc ..).symm)

/-! ## Whole programs -/

namespace Strings

/-- The objects store the texts with their numbers. -/
def StoresAll (objects : Nat → VariantString) (texts : Nat → CString) : Prop :=
  ∀ i, Stores (objects i) (texts i)

private theorem StoresAll.update {objects : Nat → VariantString} {texts : Nat → CString}
    {s : VariantString} {t : CString} (h : StoresAll objects texts) (hs : Stores s t) (i : Nat) :
    StoresAll (Function.update objects i s) (Function.update texts i t) := by
  intro k
  by_cases hk : k = i
  · subst hk
    rw [Function.update_self, Function.update_self]
    exact hs
  · rw [Function.update_of_ne hk, Function.update_of_ne hk]
    exact h k

private theorem StoresAll.step {objects objects' : Nat → VariantString} {a : Action}
    {texts : Nat → CString} (h : StoresAll objects texts) (hok : Meets objects a)
    (hstep : Strings.step objects a = some objects') :
    StoresAll objects' (abstractStep texts a) := by
  cases a with
  | assign lib i arg =>
    cases hstep
    cases arg with
    | none => exact h.update .empty i
    | some arg => exact h.update (stores_assign (h i) hok) i
  | append lib i arg =>
    cases hstep
    exact h.update (stores_append (h i) hok) i
  | format lib i text =>
    cases hstep
    exact h.update (stores_format _ hok) i
  | copy lib dst src =>
    cases hstep
    exact h.update (stores_copy (h src) hok) dst
  | swap i j =>
    cases hstep
    exact (h.update (h j) i).update (h i) j
  | destroy i =>
    cases hstep
    exact h.update .empty i

/-- **The objects are strings**: after every list of calls that all meet `Meets`, on any number of
objects, each object implements the text that the same calls give on abstract strings. -/
theorem tweakVariantString_implements (as : List Action) (objects : Nat → VariantString)
    (hrun : run step (fun _ => .empty) as = some objects)
    (hmeets : Along step Meets (fun _ => .empty) as) (i : Nat) :
    Implements (objects i) (abstractTexts as i) := by
  have hempty : StoresAll (fun _ => .empty) (fun _ => .empty) := fun _ => Stores.empty
  have hstores : StoresAll objects (abstractTexts as) :=
    run_simulation_along (fun h hok hstep => h.step hok hstep) hempty hmeets hrun
  exact (hstores i).implements

/-- The texts of the two runs below: `n` times the letter `A`. -/
def letters (n : Nat) : CString :=
  ⟨List.replicate n 65, fun h => absurd (List.eq_of_mem_replicate h) (by decide)⟩

def zeroLibrary : CLibrary where
  pointer := .zero inlineStringSize
  fresh := fun _ => 0
  failed := .zero inlineStringSize

theorem tweakVariantString_implements_heap_copy :
    ∃ objects, run step (fun _ => .empty)
      [.assign zeroLibrary 0 (some (letters 128)), .copy zeroLibrary 1 0] = some objects ∧
      Implements (objects 1) (letters 128) :=
  ⟨_, rfl, tweakVariantString_implements
    [.assign zeroLibrary 0 (some (letters 128)), .copy zeroLibrary 1 0] _ rfl (by decide +kernel) 1⟩

/-- The condition on copies is exact: the copy of a heap string with a short text owns a heap
block, but its capacity says that the text is inline. -/
theorem not_implements_copy {lib : CLibrary} {s : VariantString}
    (hheap : inlineStringSize < s.capacity) (hshort : s.length < inlineStringSize) (t : CString) :
    ¬ Implements (tweakVariantStringCopy lib s) t := by
  intro h
  have hstorage := h.storage
  have hlarge : ¬ tweakVariantIsSmallString s = true := by
    rw [tweakVariantIsSmallString, decide_eq_true_iff]
    omega
  have hcap : (s.length + 1) % sizeModulus ≤ inlineStringSize :=
    Nat.le_trans (Nat.mod_le ..) hshort
  rw [tweakVariantStringCopy, if_neg hlarge] at hstorage
  exact Option.some_ne_none _ (hstorage.mp (decide_eq_true hcap))

/-- A heap string that is assigned a short text keeps its heap block, and is then copied. -/
theorem tweakVariantString_short_heap_copy :
    ∃ objects, run step (fun _ => .empty)
      [.assign zeroLibrary 0 (some (letters 128)), .assign zeroLibrary 0 (some (letters 1)),
        .copy zeroLibrary 1 0] = some objects ∧
      ¬ Implements (objects 1) (letters 1) := by
  refine ⟨_, rfl, ?_⟩
  rw [Function.update_self]
  exact not_implements_copy (by decide +kernel) (by decide +kernel) _

end Strings

end TweakTool.Common

import Mathlib.Data.Finset.Basic
import TweakTool.Common.Variant
import TweakTool.Lib.LinkedTree
import TweakTool.Lib.Run

/-! # The uri tree of the user interface

`TweakUriTree.cpp`: the tweaks of all connections in a tree of the components of their uris. Items are
created on the way to a tweak and pruned on the way back from the removal of the last tweak below
them; `itemCacheForRemoval` tells where a tweak is. The items live in a `QList` of their parent, which
keeps an element of this size on the heap at an address of its own, so that a pointer to an item stays
good until the item is removed. -/

namespace TweakTool.Gui

open TweakTool.Lib

abbrev QString := List Char

/-- What the tree asks a `QUrl`. -/
structure QUrl where
  isValid : Bool
  path : QString

structure TweakControlId where
  connectionId : Int
  tweakId : TweakId
  deriving DecidableEq

abbrev Path := List QString

abbrev Pointer := Nat

/-- `TweakUriTree::Item`; the data of a node are its `tweaks`. -/
abbrev Item := Node Pointer QString (Finset TweakControlId)

abbrev Items := LinkedTree Pointer QString (Finset TweakControlId)

/-- What `new` returns is not in use. -/
structure Allocator where
  new : List Pointer → Pointer
  fresh : ∀ used, new used ∉ used

/-- An address after all others. -/
def Allocator.next : Allocator where
  new used := used.foldr max 0 + 1
  fresh used hmem := by
    have hle : ∀ {l : List Pointer} {a}, a ∈ l → a ≤ l.foldr max 0 := by
      intro l
      induction l with
      | nil => intro a ha; cases ha
      | cons b l ih =>
        intro a ha
        rw [List.foldr_cons]
        rcases List.mem_cons.mp ha with rfl | ha
        · exact Nat.le_max_left _ _
        · exact Nat.le_trans (ih ha) (Nat.le_max_right _ _)
    exact absurd (hle hmem) (Nat.not_succ_le_self _)

/-- The two pairs of signals about items. -/
inductive Change where
  | newItem -- `beforeNewItem`, `afterNewItem`
  | removingItem -- `beforeRemovingItem`, `afterRemovingItem`

/-- A pair of signals, with the items at the time of the first and of the second. -/
structure Signal where
  change : Change
  parent : Pointer
  index : Nat
  before : Items
  after : Items

structure TweakUriTree where
  items : Items
  itemCacheForRemoval : Table TweakControlId Path
  signals : List Signal -- all signals so far

/-- The address of the member `root`. -/
def rootItem : Pointer := 0

def Item.root : Item := ⟨"<root>".toList, rootItem, [], ∅⟩

def splitPathFromUri (uri : QUrl) : Path :=
  if uri.isValid then (uri.path.splitOn '/').filter (· ≠ []) else []

/-- `pop_back` needs an element. -/
def extractPathFromUri (uri : QUrl) : Option Path :=
  match splitPathFromUri uri with
  | [] => none
  | path => some path.dropLast

namespace TweakUriTree

def init : TweakUriTree := ⟨Table.empty.insert rootItem Item.root, .empty, []⟩

/-! ## Addition -/

/-- The loop of `addTweak`, which goes down from `current`. -/
def addTweakLoop (allocator : Allocator) (s : TweakUriTree) (current : Pointer) :
    Path → Option (TweakUriTree × Pointer)
  | [] => some (s, current)
  | name :: toDo =>
    match s.items.child? current name with
    | some x => s.addTweakLoop allocator x toDo
    | none => do
      let item ← s.items.find? current
      let x := allocator.new (s.items.entries.map Prod.fst)
      let items := s.items.attach current x name ∅
      let signal := ⟨.newItem, current, item.children.length, s.items, items⟩
      { s with items := items, signals := s.signals ++ [signal] }.addTweakLoop allocator x toDo

def addTweakAt (allocator : Allocator) (s : TweakUriTree) (path : Path) (id : TweakControlId) :
    Option TweakUriTree :=
  match s.itemCacheForRemoval.find? id with
  -- throws `std::invalid_argument`
  | some _ => none
  | none => do
    let (s, current) ← s.addTweakLoop allocator rootItem path
    some { s with
      items := s.items.modifyData current (insert id)
      itemCacheForRemoval := s.itemCacheForRemoval.insert id path }

def addTweak (allocator : Allocator) (s : TweakUriTree) (uri : QUrl) (id : TweakControlId) :
    Option TweakUriTree :=
  (extractPathFromUri uri).bind fun path => s.addTweakAt allocator path id

/-! ## Removal -/

def canBeRemovedFromParent (s : TweakUriTree) (current : Pointer) : Bool :=
  match s.items.find? current with
  | some x => x.data = ∅ ∧ x.children = []
  | none => false

/-- `none` if one of the assertions fails. -/
def removeItemInternal (s : TweakUriTree) (current : Pointer) (id : TweakControlId) :
    Path → Option (TweakUriTree × Bool)
  | [] => do
    let item ← s.items.find? current
    guard (id ∈ item.data)
    let s := { s with
      items := s.items.modifyData current (·.erase id)
      itemCacheForRemoval := s.itemCacheForRemoval.erase id }
    some (s, s.canBeRemovedFromParent current)
  | name :: remainingPath => do
    let index ← s.items.row? current name
    let found ← s.items.childAt? current index
    let (s, isEmpty) ← s.removeItemInternal found id remainingPath
    let s :=
      if isEmpty then
        let items := s.items.detach current index found
        let signal := ⟨.removingItem, current, index, s.items, items⟩
        { s with items := items, signals := s.signals ++ [signal] }
      else s
    some (s, s.canBeRemovedFromParent current)

def removeTweak (s : TweakUriTree) (id : TweakControlId) : Option TweakUriTree :=
  (s.itemCacheForRemoval.find? id).bind fun remainingPath =>
    (s.removeItemInternal rootItem id remainingPath).map Prod.fst

/-- The loop of `removeAllTweaks`. Which key of the hash table comes first is left open. -/
def removeAllTweaksLoop (front : List TweakControlId → Nat) :
    Nat → TweakUriTree → Option TweakUriTree
  | 0, s => some s
  | fuel + 1, s =>
    let keys := s.itemCacheForRemoval.entries.map Prod.fst
    match keys[front keys % keys.length]? with
    | none => some s
    | some id => (s.removeTweak id).bind (removeAllTweaksLoop front fuel)

def removeAllTweaks (front : List TweakControlId → Nat) (s : TweakUriTree) : Option TweakUriTree :=
  removeAllTweaksLoop front s.itemCacheForRemoval.entries.length s

/-! ## Search -/

def itemForPathInternal (s : TweakUriTree) (current : Pointer) : Path → Option Pointer
  | [] => some current
  | name :: remainingPath =>
    (s.items.child? current name).bind (s.itemForPathInternal · remainingPath)

def itemByUri (s : TweakUriTree) (uri : QUrl) : Option Pointer :=
  s.itemForPathInternal rootItem (splitPathFromUri uri)

private theorem itemForPathInternal_eq (s : TweakUriTree) (current : Pointer) (path : Path) :
    s.itemForPathInternal current path = s.items.walk current path := by
  induction path generalizing current with
  | nil => rfl
  | cons name path ih =>
    rw [itemForPathInternal, LinkedTree.walk]
    exact congrArg _ (funext ih)

/-! ## Histories -/

inductive Operation where
  | addTweak (allocator : Allocator) (uri : QUrl) (id : TweakControlId)
  | removeTweak (id : TweakControlId)
  | removeAllTweaks (front : List TweakControlId → Nat)

/-- `none` if the operation throws, fails an assertion or is undefined. -/
def step (s : TweakUriTree) : Operation → Option TweakUriTree
  | .addTweak allocator uri id => s.addTweak allocator uri id
  | .removeTweak id => s.removeTweak id
  | .removeAllTweaks front => s.removeAllTweaks front

end TweakUriTree

open TweakUriTree (Operation)

/-- The live tweaks, with the paths of the items they belong to. -/
abbrev Live := TweakControlId → Option Path

namespace Live

def empty : Live := fun _ => none

/-- What an operation is for. -/
def apply (live : Live) : Operation → Live
  | .addTweak _ uri id => Function.update live id (some (splitPathFromUri uri).dropLast)
  | .removeTweak id => Function.update live id none
  | .removeAllTweaks _ => empty

/-- Ids are distinct, uris have a component, and what is removed is there. -/
def Legal (live : Live) : Operation → Prop
  | .addTweak _ uri id => splitPathFromUri uri ≠ [] ∧ live id = none
  | .removeTweak id => live id ≠ none
  | .removeAllTweaks _ => True

instance (live : Live) : ∀ op, Decidable (live.Legal op)
  | .addTweak _ uri id => inferInstanceAs (Decidable (splitPathFromUri uri ≠ [] ∧ live id = none))
  | .removeTweak id => inferInstanceAs (Decidable (live id ≠ none))
  | .removeAllTweaks _ => inferInstanceAs (Decidable True)

end Live

/-! ## The tree between two changes

In the middle of an operation the items are those above live tweaks and those on the way to the item
at hand. -/

/-- The items have come to be by new leaves, removed leaves and changes of `tweaks`, and the signals
tell of all leaves. -/
inductive History : List Signal → Items → Prop where
  | init : History [] TweakUriTree.init.items
  | modifyData {signals t a x} (f) : History signals t → t.find? a = some x →
      History signals (t.modifyData a f)
  | newItem {signals t addr p a x n c} : History signals t → t.Spans rootItem addr →
      addr p = some a → t.find? a = some x → addr (p ++ [n]) = none → t.find? c = none →
      History (signals ++ [⟨.newItem, a, x.children.length, t, t.attach a c n ∅⟩])
        (t.attach a c n ∅)
  | removingItem {signals t addr p a n c i y} : History signals t → t.Spans rootItem addr →
      addr p = some a → addr (p ++ [n]) = some c → t.childAt? a i = some c → t.find? c = some y →
      y.children = [] →
      History (signals ++ [⟨.removingItem, a, i, t, t.detach a i c⟩]) (t.detach a i c)

namespace TweakUriTree

variable {s : TweakUriTree} {addr : Path → Option Pointer} {p path : Path} {a : Pointer}
  {id : TweakControlId}

structure Shows (s : TweakUriTree) (addr : Path → Option Pointer) (p : Path) : Prop where
  spans : s.items.Spans rootItem addr
  nodes : ∀ q, (∃ a, addr q = some a) ↔
    q <+: p ∨ ∃ id path, s.itemCacheForRemoval.find? id = some path ∧ q <+: path
  stored : ∀ {q a x}, addr q = some a → s.items.find? a = some x →
    ∀ id, id ∈ x.data ↔ s.itemCacheForRemoval.find? id = some q
  history : History s.signals s.items

/-- The way to an item above a live tweak is no more than that. -/
theorem Shows.change (h : s.Shows addr p) {q : Path}
    (hpq : ∀ r, (r <+: p ∨ ∃ id path, s.itemCacheForRemoval.find? id = some path ∧ r <+: path) ↔
      (r <+: q ∨ ∃ id path, s.itemCacheForRemoval.find? id = some path ∧ r <+: path)) :
    s.Shows addr q :=
  ⟨h.spans, fun r => (h.nodes r).trans (hpq r), h.stored, h.history⟩

private theorem Shows.extend (h : s.Shows addr p) {n : QString} {c : Pointer}
    (hc : addr (p ++ [n]) = some c) : s.Shows addr (p ++ [n]) := by
  refine h.change fun r => ⟨?_, ?_⟩
  · rintro (hr | hr)
    · exact .inl (hr.trans (List.prefix_append p [n]))
    · exact .inr hr
  · rintro (hr | hr)
    · rcases (h.nodes _).mp ⟨c, hc⟩ with hpn | ⟨id, path, hid, hpath⟩
      · exact .inl (hr.trans hpn)
      · exact .inr ⟨id, path, hid, hr.trans hpath⟩
    · exact .inr hr

private theorem shows_init : ∃ addr, init.Shows addr [] := by
  -- the root, and nothing else
  have hfind : ∀ a, init.items.find? a = if a = rootItem then some Item.root else none :=
    fun a => Table.find?_insert (Table.find?_empty _) _ a
  refine ⟨fun q => if q = [] then some rootItem else none, ⟨rfl, ?_, ?_, ?_, ?_, ?_⟩, ?_, ?_, .init⟩
  · intro q r a hq hr
    split at hq
    · next hq' =>
        split at hr
        · next hr' => rw [hq', hr']
        · cases hr
    · cases hq
  · intro a
    rw [hfind]
    constructor
    · rintro ⟨q, hq⟩
      split at hq
      · cases hq
        exact ⟨_, if_pos rfl⟩
      · cases hq
    · rintro ⟨x, hx⟩
      split at hx
      · next ha => exact ⟨[], by rw [if_pos rfl, ha]⟩
      · cases hx
  · intro q a x hq hx c
    rw [hfind] at hx
    split at hx
    · cases hx
      refine iff_of_false List.not_mem_nil ?_
      rintro ⟨n, hn⟩
      rw [if_neg (by simp)] at hn
      cases hn
    · cases hx
  · intro a x hx
    rw [hfind] at hx
    split at hx
    · cases hx
      exact List.nodup_nil
    · cases hx
  · intro q n c x hc
    rw [if_neg (by simp)] at hc
    cases hc
  · intro q
    rw [List.prefix_nil]
    constructor
    · rintro ⟨a, ha⟩
      split at ha
      · next hq => exact .inl hq
      · cases ha
    · rintro (rfl | ⟨id, path, ⟨⟩, -⟩)
      exact ⟨rootItem, rfl⟩
  · intro q a x hq hx id
    rw [hfind] at hx
    split at hx
    · cases hx
      exact iff_of_false (Finset.notMem_empty id) (by rintro ⟨⟩)
    · cases hx

/-- One new item. -/
theorem Shows.newItem (h : s.Shows addr p) (ha : addr p = some a) {x : Item}
    (hx : s.items.find? a = some x) {n : QString} (hn : addr (p ++ [n]) = none) {c : Pointer}
    (hc : s.items.find? c = none) :
    let items := s.items.attach a c n ∅
    let signal := ⟨.newItem, a, x.children.length, s.items, items⟩
    { s with items := items, signals := s.signals ++ [signal] : TweakUriTree }.Shows
      (fun q => if q = p ++ [n] then some c else addr q) (p ++ [n]) := by
  intro items signal
  -- nothing is stored at a path that is not there
  have hnew : ∀ q, addr q = none → ∀ id, s.itemCacheForRemoval.find? id ≠ some q := by
    intro q hq id hid
    obtain ⟨b, hb⟩ := (h.nodes q).mpr (.inr ⟨id, q, hid, List.prefix_refl q⟩)
    rw [hq] at hb
    cases hb
  refine ⟨h.spans.attach ha hn hc ∅, fun q => ?_, fun {q b y} hb hy id => ?_,
    .newItem h.history h.spans ha hx hn hc⟩
  · rw [List.prefix_concat_iff, or_assoc, ← h.nodes q]
    by_cases hq : q = p ++ [n]
    · rw [if_pos hq]
      exact iff_of_true ⟨c, rfl⟩ (.inl hq)
    · rw [if_neg hq]
      exact (or_iff_right hq).symm
  · replace hy : items.find? b = some y := hy
    rw [LinkedTree.find?_attach hx hc] at hy
    split at hb
    · next hq =>
        cases hb
        rw [if_pos rfl, if_neg] at hy
        · cases hy
          rw [hq]
          exact iff_of_false (Finset.notMem_empty id) (hnew _ hn id)
        · rintro rfl
          rw [hx] at hc
          cases hc
    · split at hy -- an item that was there
      · next hba =>
          cases hy
          rw [hba] at hb
          exact h.stored (x := x) hb hx id
      · split at hy
        · next hbc =>
            obtain ⟨z, hz⟩ := h.spans.node hb
            rw [hbc, hc] at hz
            cases hz
        · exact h.stored hb hy id

/-- The loop makes the items that are missing. -/
theorem addTweakLoop_spec (allocator : Allocator) : ∀ (toDo : Path) {s : TweakUriTree}
    {addr : Path → Option Pointer} {p : Path} {a : Pointer}, s.Shows addr p → addr p = some a →
    ∃ s' b addr', s.addTweakLoop allocator a toDo = some (s', b) ∧ s'.Shows addr' (p ++ toDo) ∧
      addr' (p ++ toDo) = some b ∧ s'.itemCacheForRemoval = s.itemCacheForRemoval
  | [], s, addr, p, a, h, ha => by
    rw [List.append_nil]
    exact ⟨s, a, addr, rfl, h, ha, rfl⟩
  | n :: toDo, s, addr, p, a, h, ha => by
    rw [addTweakLoop, h.spans.child?_eq ha, List.append_cons p n toDo]
    cases hc : addr (p ++ [n]) with
    | some c => exact addTweakLoop_spec allocator toDo (h.extend hc) hc
    | none =>
      obtain ⟨x, hx⟩ := h.spans.node ha
      have hfresh := Table.find?_eq_none_iff.mpr (allocator.fresh (s.items.entries.map Prod.fst))
      dsimp only
      rw [hx]
      exact addTweakLoop_spec allocator toDo (h.newItem ha hx hc hfresh) (if_pos rfl)

private theorem addTweakAt_spec (allocator : Allocator) (h : s.Shows addr [])
    (hid : s.itemCacheForRemoval.find? id = none) (path : Path) :
    ∃ s' addr', s.addTweakAt allocator path id = some s' ∧ s'.Shows addr' [] ∧
      s'.itemCacheForRemoval = s.itemCacheForRemoval.insert id path := by
  obtain ⟨t, b, addr', hloop, ht, hb, hcache⟩ := addTweakLoop_spec allocator path h h.spans.root
  rw [List.nil_append] at ht hb
  rw [addTweakAt, hid]
  dsimp only
  rw [hloop]
  obtain ⟨x, hx⟩ := ht.spans.node hb
  refine ⟨_, addr', rfl, ⟨ht.spans.modifyData hx _, fun q => ?_, fun {q c y} hc hy id' => ?_,
    .modifyData _ ht.history hx⟩, by rw [hcache]⟩
  · -- the way to the item has become the way to a live tweak
    rw [ht.nodes, hcache, List.prefix_nil]
    simp only [Table.find?_insert hid]
    constructor
    · rintro (hq | ⟨id', path', hid', hq⟩)
      · exact .inr ⟨id, path, if_pos rfl, hq⟩
      · refine .inr ⟨id', path', ?_, hq⟩
        rw [if_neg, hid']
        rintro rfl
        rw [hid] at hid'
        cases hid'
    · rintro (rfl | ⟨id', path', hid', hq⟩)
      · exact .inl (List.nil_prefix)
      · split at hid'
        · cases hid'
          exact .inl hq
        · exact .inr ⟨id', path', hid', hq⟩
  · replace hy : (t.items.modifyData b (insert id)).find? c = some y := hy
    rw [LinkedTree.find?_modifyData hx] at hy
    rw [hcache, Table.find?_insert hid]
    split at hy
    · next hcb =>
        cases hy
        rw [hcb] at hc
        have hq : path = q := ht.spans.injective hb hc
        rw [Finset.mem_insert, ht.stored hc hx, hcache]
        by_cases hid' : id' = id
        · simp [hid', hq]
        · simp [hid']
    · next hcb =>
        rw [ht.stored hc hy, hcache]
        by_cases hid' : id' = id
        · rw [if_pos hid', hid', hid]
          refine iff_of_false (by rintro ⟨⟩) fun hpath => hcb ?_
          cases hpath
          rw [hb] at hc
          exact (Option.some_inj.mp hc).symm
        · rw [if_neg hid']

/-! ## Removal keeps it -/

/-- An item is pruned if no live tweak is below it. -/
theorem Shows.canBeRemovedFromParent_iff (h : s.Shows addr p) (ha : addr p = some a) :
    s.canBeRemovedFromParent a = true ↔
      ∀ id path, s.itemCacheForRemoval.find? id = some path → ¬ p <+: path := by
  obtain ⟨x, hx⟩ := h.spans.node ha
  rw [canBeRemovedFromParent, hx, decide_eq_true_iff]
  constructor
  · rintro ⟨hdata, hchildren⟩ id path hid ⟨q, rfl⟩
    cases q with
    | nil =>
      rw [List.append_nil] at hid
      have hmem := (h.stored ha hx id).mpr hid
      rw [hdata] at hmem
      exact Finset.notMem_empty id hmem
    | cons n q =>
      obtain ⟨c, hc⟩ := (h.nodes (p ++ [n])).mpr (.inr ⟨id, _, hid, q, by simp⟩)
      have hmem := h.spans.mem_children ha hx hc
      rw [hchildren] at hmem
      cases hmem
  · intro hlive
    constructor
    · rw [Finset.eq_empty_iff_forall_notMem]
      intro id hid
      exact hlive id p ((h.stored ha hx id).mp hid) (List.prefix_refl p)
    · rw [List.eq_nil_iff_forall_not_mem]
      intro c hc
      obtain ⟨n, hn⟩ := (h.spans.children ha hx c).mp hc
      rcases (h.nodes _).mp ⟨c, hn⟩ with hp | ⟨id, path, hid, hpath⟩
      · have := hp.length_le
        rw [List.length_append, List.length_singleton] at this
        omega
      · exact hlive id path hid ((List.prefix_append p [n]).trans hpath)

/-- The tweak leaves its item. -/
theorem Shows.erase (h : s.Shows addr p) (ha : addr p = some a) {x : Item}
    (hx : s.items.find? a = some x) (hid : s.itemCacheForRemoval.find? id = some p) :
    { s with
      items := s.items.modifyData a (·.erase id)
      itemCacheForRemoval := s.itemCacheForRemoval.erase id : TweakUriTree }.Shows addr p := by
  refine ⟨h.spans.modifyData hx (·.erase id), fun q => ?_, fun {q b y} hb hy id' => ?_,
    .modifyData (·.erase id) h.history hx⟩
  · rw [h.nodes q]
    constructor
    · rintro (hq | ⟨id', path, hid', hq⟩)
      · exact .inl hq
      · by_cases heq : id' = id
        · rw [heq, hid] at hid'
          cases hid'
          exact .inl hq
        · exact .inr ⟨id', path, by rw [Table.find?_erase, if_neg heq, hid'], hq⟩
    · rintro (hq | ⟨id', path, hid', hq⟩)
      · exact .inl hq
      · rw [Table.find?_erase] at hid'
        split at hid'
        · cases hid'
        · exact .inr ⟨id', path, hid', hq⟩
  · replace hy : (s.items.modifyData a (·.erase id)).find? b = some y := hy
    rw [LinkedTree.find?_modifyData hx] at hy
    rw [Table.find?_erase]
    split at hy
    · next hba =>
        cases hy
        rw [hba] at hb
        rw [Finset.mem_erase, h.stored hb hx]
        by_cases heq : id' = id <;> simp [heq]
    · next hba =>
        rw [h.stored hb hy]
        by_cases heq : id' = id
        · rw [if_pos heq, heq, hid]
          refine iff_of_false (fun hpath => hba ?_) (by rintro ⟨⟩)
          cases hpath
          rw [ha] at hb
          exact (Option.some_inj.mp hb).symm
        · rw [if_neg heq]

/-- One item is pruned. -/
theorem Shows.removingItem {n : QString} (h : s.Shows addr (p ++ [n])) (ha : addr p = some a)
    {c : Pointer} (hc : addr (p ++ [n]) = some c) {i : Nat} (hi : s.items.childAt? a i = some c)
    (hempty : ∀ id path, s.itemCacheForRemoval.find? id = some path → ¬ p ++ [n] <+: path) :
    let items := s.items.detach a i c
    let signal := ⟨.removingItem, a, i, s.items, items⟩
    { s with items := items, signals := s.signals ++ [signal] : TweakUriTree }.Shows
      (fun q => if q = p ++ [n] then none else addr q) p := by
  intro items signal
  obtain ⟨y, hy⟩ := h.spans.node hc
  have hleaf : y.children = [] := by
    have hremoved := (h.canBeRemovedFromParent_iff hc).mpr hempty
    rw [canBeRemovedFromParent, hy, decide_eq_true_iff] at hremoved
    exact hremoved.2
  obtain ⟨x, hx⟩ := h.spans.node ha
  have hac : a ≠ c := by
    rintro rfl
    have hpath := congrArg List.length (h.spans.injective ha hc)
    rw [List.length_append, List.length_singleton] at hpath
    omega
  refine ⟨h.spans.detach ha hc hi hy hleaf, fun q => ?_, fun {q b z} hb hz id => ?_,
    .removingItem h.history h.spans ha hc hi hy hleaf⟩
  · have hnodes := h.nodes q
    rw [List.prefix_concat_iff] at hnodes
    by_cases hq : q = p ++ [n]
    · rw [if_pos hq, hq]
      refine iff_of_false (by rintro ⟨_, ⟨⟩⟩) ?_
      rintro (hp | ⟨id, path, hid, hpath⟩)
      · have := hp.length_le
        rw [List.length_append, List.length_singleton] at this
        omega
      · exact hempty id path hid hpath
    · rw [if_neg hq, hnodes, or_iff_right hq]
  · obtain ⟨hq, hb⟩ := LinkedTree.some_of_ite_some hb
    replace hz : items.find? b = some z := hz
    rw [LinkedTree.find?_detach hx hac] at hz
    split at hz
    · next hba =>
        cases hz
        rw [hba] at hb
        exact h.stored (x := x) hb hx id
    · split at hz
      · cases hz
      · exact h.stored hb hz id

/-- The recursion removes the tweak and prunes what is below; above, nothing changes. -/
theorem removeItemInternal_spec (id : TweakControlId) : ∀ (q : Path) {s : TweakUriTree}
    {addr : Path → Option Pointer} {p : Path} {a : Pointer}, s.Shows addr p → addr p = some a →
    s.itemCacheForRemoval.find? id = some (p ++ q) →
    ∃ s' isEmpty addr', s.removeItemInternal a id q = some (s', isEmpty) ∧ s'.Shows addr' p ∧
      s'.itemCacheForRemoval = s.itemCacheForRemoval.erase id ∧
      (∀ r, r <+: p → addr' r = addr r) ∧
      (∀ r b, r <+: p → r ≠ p → addr r = some b → s'.items.find? b = s.items.find? b) ∧
      (isEmpty = true ↔ ∀ id path, s'.itemCacheForRemoval.find? id = some path → ¬ p <+: path)
  | [], s, addr, p, a, h, ha, hid => by -- the item with the tweak
    rw [List.append_nil] at hid
    obtain ⟨x, hx⟩ := h.spans.node ha
    have hmem := (h.stored ha hx id).mpr hid
    have hshows := h.erase ha hx hid
    refine ⟨_, _, addr, ?_, hshows, rfl, fun _ _ => rfl, fun r b _ hrp hb => ?_,
      hshows.canBeRemovedFromParent_iff ha⟩
    · rw [removeItemInternal, hx]
      simp [hmem]
    · refine (LinkedTree.find?_modifyData hx _ b).trans (if_neg ?_)
      rintro rfl
      exact hrp (h.spans.injective hb ha)
  | n :: q, s, addr, p, a, h, ha, hid => by -- on the way to it
    rw [List.append_cons] at hid
    obtain ⟨c, hc⟩ := (h.nodes (p ++ [n])).mpr (.inr ⟨id, _, hid, List.prefix_append _ _⟩)
    obtain ⟨i, hrow, hchild⟩ := h.spans.row?_eq_some ha hc
    obtain ⟨t, isEmpty, addr', hrec, ht, hcache, hsame, hframe, hisEmpty⟩ :=
      removeItemInternal_spec id q (h.extend hc) hc hid
    have hp : p <+: p ++ [n] := List.prefix_append p [n]
    have hne : ∀ {r : Path}, r <+: p → r ≠ p ++ [n] := by
      rintro _ hr rfl
      have := hr.length_le
      rw [List.length_append, List.length_singleton] at this
      omega
    have ha' : addr' p = some a := (hsame p hp).trans ha
    have hc' : addr' (p ++ [n]) = some c := (hsame _ (List.prefix_refl _)).trans hc
    have hchild' : t.items.childAt? a i = some c := by
      rw [LinkedTree.childAt?, hframe p a hp (hne (List.prefix_refl p)) ha]
      exact hchild
    rw [removeItemInternal, hrow]
    dsimp only [Option.bind_eq_bind, Option.bind_some]
    rw [hchild, Option.bind_some, hrec, Option.bind_some]
    cases isEmpty with
    | true => -- the child has no live tweak below it any more, and is removed
      have hshows := ht.removingItem ha' hc' hchild' (hisEmpty.mp rfl)
      refine ⟨_, _, _, rfl, hshows, hcache, fun r hr => ?_, fun r b hr hrp hb => ?_,
        hshows.canBeRemovedFromParent_iff (by rw [if_neg (hne (List.prefix_refl p)), ha'])⟩
      · rw [if_neg (hne hr), hsame r (hr.trans hp)]
      · obtain ⟨x, hx⟩ := ht.spans.node ha'
        have hba : b ≠ a := by
          rintro rfl
          exact hrp (h.spans.injective hb ha)
        have hbc : b ≠ c := by
          rintro rfl
          exact hne hr (h.spans.injective hb hc)
        have hac : a ≠ c := by
          rintro rfl
          exact hne (List.prefix_refl p) (h.spans.injective ha hc)
        refine (LinkedTree.find?_detach hx hac i b).trans ?_
        rw [if_neg hba, if_neg hbc, hframe r b (hr.trans hp) (hne hr) hb]
    | false => -- the child is still needed
      have hshows : t.Shows addr' p := by
        refine ht.change fun r => ?_
        have hlive : ∃ id path, t.itemCacheForRemoval.find? id = some path ∧
            p ++ [n] <+: path := by
          by_contra hnone -- otherwise it would be empty
          have htrue := hisEmpty.mpr fun id path hid hpath => hnone ⟨id, path, hid, hpath⟩
          cases htrue
        obtain ⟨id', path', hid', hpath'⟩ := hlive
        constructor
        · rintro (hr | hr)
          · exact .inr ⟨id', path', hid', hr.trans hpath'⟩
          · exact .inr hr
        · rintro (hr | hr)
          · exact .inl (hr.trans hp)
          · exact .inr hr
      refine ⟨t, _, addr', rfl, hshows, hcache, fun r hr => hsame r (hr.trans hp),
        fun r b hr _ hb => hframe r b (hr.trans hp) (hne hr) hb,
        hshows.canBeRemovedFromParent_iff ha'⟩

/-- A removed tweak is gone from the tree and the cache. -/
theorem removeTweak_spec (h : s.Shows addr []) (hid : s.itemCacheForRemoval.find? id = some path) :
    ∃ s' addr', s.removeTweak id = some s' ∧ s'.Shows addr' [] ∧
      s'.itemCacheForRemoval = s.itemCacheForRemoval.erase id := by
  obtain ⟨s', isEmpty, addr', hremove, hshows, hcache, -⟩ :=
    removeItemInternal_spec id path h h.spans.root hid
  refine ⟨s', addr', ?_, hshows, hcache⟩
  rw [removeTweak, hid, Option.bind_some, hremove, Option.map_some]

/-- The loop comes to an end, in whatever order the keys come. -/
theorem removeAllTweaksLoop_spec (front : List TweakControlId → Nat) : ∀ (fuel : Nat)
    {s : TweakUriTree} {addr : Path → Option Pointer}, s.Shows addr [] →
    s.itemCacheForRemoval.entries.length ≤ fuel →
    ∃ s' addr', removeAllTweaksLoop front fuel s = some s' ∧ s'.Shows addr' [] ∧
      ∀ id, s'.itemCacheForRemoval.find? id = none
  | 0, s, addr, h, hlength => by
    refine ⟨s, addr, rfl, h, fun id => ?_⟩
    rw [Table.find?_eq_none_iff, List.length_eq_zero_iff.mp (Nat.le_zero.mp hlength)]
    exact List.not_mem_nil
  | fuel + 1, s, addr, h, hlength => by
    rw [removeAllTweaksLoop]
    split
    · next hnone =>
        refine ⟨s, addr, rfl, h, fun id => ?_⟩
        rw [Table.find?_eq_none_iff]
        intro hmem
        exact absurd (List.getElem?_eq_none_iff.mp hnone)
          (Nat.not_le_of_lt (Nat.mod_lt _ (List.length_pos_of_mem hmem)))
    · next id hsome =>
        obtain ⟨⟨id, path⟩, hentry, rfl⟩ := List.mem_map.mp (List.mem_of_getElem? hsome)
        have hid := Table.mem_entries_iff.mp hentry
        obtain ⟨t, addr', hremove, ht, hcache⟩ := removeTweak_spec h hid
        rw [hremove, Option.bind_some]
        apply removeAllTweaksLoop_spec front fuel ht
        have := Table.length_erase_lt hid
        rw [hcache]
        omega

/-! ## The tree and the live tweaks -/

/-- The tree at rest, with its cache as the set of live tweaks. -/
def Follows (s : TweakUriTree) (live : Live) : Prop :=
  (∃ addr, s.Shows addr []) ∧ ∀ id, s.itemCacheForRemoval.find? id = live id

variable {live : Live}

theorem follows_init : init.Follows .empty := ⟨shows_init, fun _ => rfl⟩

/-- Every legal operation succeeds and does what it is for. -/
theorem follows_step {op : Operation} (h : s.Follows live) (hlegal : live.Legal op) :
    ∃ s', s.step op = some s' ∧ s'.Follows (live.apply op) := by
  obtain ⟨⟨addr, h⟩, hlive⟩ := h
  cases op with
  | addTweak allocator uri id =>
    obtain ⟨huri, hid⟩ := hlegal
    rw [← hlive] at hid
    obtain ⟨s', addr', hadd, hshows, hcache⟩ :=
      addTweakAt_spec allocator h hid (splitPathFromUri uri).dropLast
    refine ⟨s', ?_, ⟨addr', hshows⟩, fun id' => ?_⟩
    · rw [step, addTweak, extractPathFromUri]
      split
      · next hnil => exact absurd hnil huri
      · exact hadd
    · rw [hcache, Table.find?_insert hid, Live.apply, Function.update_apply, hlive]
  | removeTweak id =>
    obtain ⟨path, hpath⟩ := Option.ne_none_iff_exists'.mp hlegal
    rw [← hlive] at hpath
    obtain ⟨s', addr', hremove, hshows, hcache⟩ := removeTweak_spec h hpath
    refine ⟨s', hremove, ⟨addr', hshows⟩, fun id' => ?_⟩
    rw [hcache, Table.find?_erase, Live.apply, Function.update_apply, hlive]
  | removeAllTweaks front =>
    obtain ⟨s', addr', hremove, hshows, hcache⟩ :=
      removeAllTweaksLoop_spec front _ h (Nat.le_refl _)
    exact ⟨s', hremove, ⟨addr', hshows⟩, hcache⟩

def Stores (s : TweakUriTree) (item : Pointer) (id : TweakControlId) : Prop :=
  ∃ x, s.items.find? item = some x ∧ id ∈ x.data

structure Holds (s : TweakUriTree) (live : Live) : Prop where
  /-- A live tweak is in one item, the one at its path. -/
  stored : ∀ {id path}, live id = some path → ∃ item,
    s.itemForPathInternal rootItem path = some item ∧ ∀ other, s.Stores other id ↔ other = item
  others : ∀ {item id}, s.Stores item id → live id ≠ none -- there are no other tweaks
  found : ∀ uri, s.itemByUri uri ≠ none ↔ splitPathFromUri uri = [] ∨
    ∃ id path, live id = some path ∧ splitPathFromUri uri <+: path
  names : ∀ {item x}, s.items.find? item = some x →
    (x.children.map fun c => (s.items.find? c).map Node.name).Nodup
  /-- Every other item than the root has a live tweak below it. -/
  needed : ∀ {item x}, s.items.find? item = some x → item ≠ rootItem → ∃ path below id,
    s.itemForPathInternal item path = some below ∧ s.Stores below id ∧ live id ≠ none

/-- A root without children and tweaks. -/
def Bare (s : TweakUriTree) : Prop :=
  (∃ x, s.items.find? rootItem = some x) ∧
    ∀ item x, s.items.find? item = some x → item = rootItem ∧ x.children = [] ∧ x.data = ∅

private theorem Shows.stores_iff (h : s.Shows addr p) {item : Pointer} :
    s.Stores item id ↔ ∃ q, s.itemCacheForRemoval.find? id = some q ∧ addr q = some item := by
  constructor
  · rintro ⟨x, hx, hmem⟩
    obtain ⟨q, hq⟩ := (h.spans.found item).mpr ⟨x, hx⟩
    exact ⟨q, (h.stored hq hx id).mp hmem, hq⟩
  · rintro ⟨q, hid, hq⟩
    obtain ⟨x, hx⟩ := h.spans.node hq
    exact ⟨x, hx, (h.stored hq hx id).mpr hid⟩

/-- The items hold the live tweaks and nothing else. -/
theorem Follows.holds (h : s.Follows live) : s.Holds live := by
  obtain ⟨⟨addr, h⟩, hlive⟩ := h
  have hwalk : ∀ {q a} r, addr q = some a → s.itemForPathInternal a r = addr (q ++ r) :=
    fun r ha => (s.itemForPathInternal_eq _ r).trans (h.spans.walk_eq r ha)
  constructor
  case stored =>
    intro id path hid
    rw [← hlive] at hid
    obtain ⟨item, hitem⟩ := (h.nodes path).mpr (.inr ⟨id, path, hid, List.prefix_refl path⟩)
    refine ⟨item, by rw [hwalk path h.spans.root, List.nil_append, hitem], fun other => ?_⟩
    rw [h.stores_iff]
    constructor
    · rintro ⟨q, hq, hother⟩
      rw [hid] at hq
      cases hq
      rw [hitem] at hother
      exact (Option.some_inj.mp hother).symm
    · rintro rfl
      exact ⟨path, hid, hitem⟩
  case others =>
    intro item id hstores
    obtain ⟨q, hid, -⟩ := h.stores_iff.mp hstores
    rw [← hlive, hid]
    rintro ⟨⟩
  case found =>
    intro uri
    rw [itemByUri, hwalk _ h.spans.root, List.nil_append, Option.ne_none_iff_exists', h.nodes,
      List.prefix_nil]
    simp only [hlive]
  case names =>
    intro item x hx
    exact h.spans.nodup_names hx
  case needed =>
    intro item x hx hroot
    obtain ⟨q, hq⟩ := (h.spans.found item).mpr ⟨x, hx⟩
    rcases (h.nodes q).mp ⟨item, hq⟩ with hnil | ⟨id, path, hid, r, rfl⟩
    · rw [List.prefix_nil.mp hnil, h.spans.root] at hq
      cases hq
      exact absurd rfl hroot
    · obtain ⟨below, hbelow⟩ := (h.nodes (q ++ r)).mpr (.inr ⟨id, _, hid, List.prefix_refl _⟩)
      refine ⟨r, below, id, by rw [hwalk r hq, hbelow], h.stores_iff.mpr ⟨_, hid, hbelow⟩, ?_⟩
      rw [← hlive, hid]
      rintro ⟨⟩

private theorem Follows.bare (h : s.Follows .empty) : s.Bare := by
  obtain ⟨⟨addr, h⟩, hlive⟩ := h
  have hroot : ∀ {q a}, addr q = some a → q = [] := by
    intro q a ha
    rcases (h.nodes q).mp ⟨a, ha⟩ with hnil | ⟨id, path, hid, -⟩
    · exact List.prefix_nil.mp hnil
    · rw [hlive] at hid
      cases hid
  refine ⟨h.spans.node h.spans.root, fun item x hx => ?_⟩
  obtain ⟨q, hq⟩ := (h.spans.found item).mpr ⟨x, hx⟩
  obtain rfl := hroot hq
  have hempty := (h.canBeRemovedFromParent_iff hq).mpr fun id path hid => by
    rw [hlive] at hid
    cases hid
  rw [canBeRemovedFromParent, hx, decide_eq_true_iff] at hempty
  refine ⟨?_, hempty.2, hempty.1⟩
  rw [h.spans.root] at hq
  exact (Option.some_inj.mp hq).symm

/-- A legal history runs to its end. Then every live tweak is in the item at its path and nowhere else,
no other tweak is anywhere, the root and the paths above live tweaks are found and no others, siblings
have different names, and no item is without a live tweak below it; and a history that ends with
`removeAllTweaks` leaves a bare root. -/
theorem tree_holds_live (ops : List Operation)
    (hlegal : Along (fun live op => some (Live.apply live op)) Live.Legal Live.empty ops) :
    ∃ s, run step init ops = some s ∧ s.Holds (ops.foldl Live.apply Live.empty) ∧
      ∀ front, ops.getLast? = some (.removeAllTweaks front) → s.Bare := by
  obtain ⟨s, hrun, hfollows⟩ := run_total_simulation follows_step follows_init hlegal
  refine ⟨s, hrun, hfollows.holds, fun front hlast => ?_⟩
  obtain ⟨before, rfl⟩ := List.getLast?_eq_some_iff.mp hlast
  rw [List.foldl_concat] at hfollows
  exact hfollows.bare

theorem tree_holds_live_removal :
    let ops : List Operation :=
      [.addTweak .next ⟨true, "/a//b/c".toList⟩ ⟨0, 1⟩, .addTweak .next ⟨true, "/a/c".toList⟩ ⟨0, 2⟩,
        .removeTweak ⟨0, 1⟩]
    ∃ s, run step init ops = some s ∧ s.Holds (ops.foldl Live.apply Live.empty) ∧
      ∀ front, ops.getLast? = some (.removeAllTweaks front) → s.Bare :=
  tree_holds_live _ (by decide +kernel)

/-- The root is found also when no tweak is live. -/
theorem root_found_without_tweaks :
    ∃ (ops : List Operation) (s : TweakUriTree) (uri : QUrl),
      Along (fun live op => some (Live.apply live op)) Live.Legal Live.empty ops ∧
      run step init ops = some s ∧ s.itemByUri uri ≠ none ∧
      ¬ ∃ id path, ops.foldl Live.apply Live.empty id = some path ∧
        splitPathFromUri uri <+: path := by
  refine ⟨[.removeAllTweaks fun _ => 0], _, ⟨true, "/".toList⟩, by decide, rfl, by decide, ?_⟩
  rintro ⟨id, path, ⟨⟩, -⟩

end TweakUriTree

end TweakTool.Gui

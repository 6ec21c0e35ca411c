import Mathlib.Data.List.Infix
import Mathlib.Data.List.Perm.Subperm
import Mathlib.Logic.Function.Basic
import TweakTool.Lib.Table

/-! # Linked trees

Trees in memory: a node has a name, knows its parent and lists its children, and a child is looked
for by its name. What keeps such a structure a tree is that every node is at one path of names from
the root. `Spans` says so; it is kept when a leaf is attached and when a leaf is detached, and the
searches by name then find what is at the path. -/

namespace TweakTool.Lib

structure Node (A N D : Type) where
  name : N
  parent : A
  children : List A
  data : D

abbrev LinkedTree (A N D : Type) := Table A (Node A N D)

namespace LinkedTree

variable {A N D : Type} [DecidableEq A] [DecidableEq N]

/-! ## Searches -/

def hasName (t : LinkedTree A N D) (n : N) (c : A) : Bool := (t.find? c).any (·.name = n)

/-- The row of the first child of that name. -/
def row? (t : LinkedTree A N D) (a : A) (n : N) : Option Nat :=
  (t.find? a).bind fun x => x.children.findIdx? (t.hasName n)

def childAt? (t : LinkedTree A N D) (a : A) (i : Nat) : Option A :=
  (t.find? a).bind fun x => x.children[i]?

def child? (t : LinkedTree A N D) (a : A) (n : N) : Option A :=
  (t.row? a n).bind (t.childAt? a)

/-- The node that is reached from another one by names. -/
def walk (t : LinkedTree A N D) (a : A) : List N → Option A
  | [] => some a
  | n :: p => (t.child? a n).bind (t.walk · p)

omit [DecidableEq N] in
/-- The node that is reached from another one by rows. -/
def descend (t : LinkedTree A N D) (a : A) : List Nat → Option A
  | [] => some a
  | i :: rows => (t.childAt? a i).bind (t.descend · rows)

omit [DecidableEq N] in
theorem descend_append (t : LinkedTree A N D) (a : A) (rows rows' : List Nat) :
    t.descend a (rows ++ rows') = (t.descend a rows).bind (t.descend · rows') := by
  induction rows generalizing a with
  | nil => rfl
  | cons i rows ih =>
    rw [List.cons_append, descend, descend, Option.bind_assoc]
    exact congrArg _ (funext ih)

/-! ## Trees -/

omit [DecidableEq N]

/-- Every node is at one path, and every link leads one step along a path. -/
structure Spans (t : LinkedTree A N D) (root : A) (addr : List N → Option A) : Prop where
  root : addr [] = some root
  injective : ∀ {p q a}, addr p = some a → addr q = some a → p = q
  found : ∀ a, (∃ p, addr p = some a) ↔ ∃ x, t.find? a = some x
  children : ∀ {p a x}, addr p = some a → t.find? a = some x →
    ∀ c, c ∈ x.children ↔ ∃ n, addr (p ++ [n]) = some c
  nodup : ∀ {a x}, t.find? a = some x → x.children.Nodup
  linked : ∀ {p n c x}, addr (p ++ [n]) = some c → t.find? c = some x →
    x.name = n ∧ addr p = some x.parent

namespace Spans

variable {t : LinkedTree A N D} {root : A} {addr : List N → Option A} {p q : List N} {a c : A}
  {n : N} {x : Node A N D}

theorem node (h : t.Spans root addr) (ha : addr p = some a) : ∃ x, t.find? a = some x :=
  (h.found a).mp ⟨p, ha⟩

/-- Above a node there are nodes. -/
theorem ancestor (h : t.Spans root addr) : ∀ {q : List N}, addr (p ++ q) = some c →
    ∃ a, addr p = some a := by
  intro q
  induction q using List.reverseRecOn generalizing c with
  | nil =>
    intro hc
    rw [List.append_nil] at hc
    exact ⟨c, hc⟩
  | append_singleton q n ih =>
    intro hc
    rw [← List.append_assoc] at hc
    obtain ⟨x, hx⟩ := h.node hc
    exact ih (h.linked hc hx).2

/-- Who is one step further is a child. -/
theorem mem_children (h : t.Spans root addr) (ha : addr p = some a) (hx : t.find? a = some x)
    (hc : addr (p ++ [n]) = some c) : c ∈ x.children :=
  (h.children ha hx c).mpr ⟨n, hc⟩

/-- A child is one step further. -/
theorem of_childAt? (h : t.Spans root addr) (ha : addr p = some a) {i : Nat}
    (hc : t.childAt? a i = some c) : ∃ n, addr (p ++ [n]) = some c := by
  obtain ⟨x, hx, hi⟩ := Option.bind_eq_some_iff.mp hc
  exact (h.children ha hx c).mp (List.mem_of_getElem? hi)

/-- Rows lead down. -/
theorem of_descend (h : t.Spans root addr) : ∀ {rows : List Nat} {p : List N} {a : A},
    addr p = some a → t.descend a rows = some c → ∃ q, addr (p ++ q) = some c := by
  intro rows
  induction rows with
  | nil =>
    intro p a ha hc
    cases hc
    exact ⟨[], by rwa [List.append_nil]⟩
  | cons i rows ih =>
    intro p a ha hc
    obtain ⟨b, hb, hc⟩ := Option.bind_eq_some_iff.mp hc
    obtain ⟨n, hn⟩ := h.of_childAt? ha hb
    obtain ⟨q, hq⟩ := ih hn hc
    exact ⟨n :: q, by rwa [List.append_assoc] at hq⟩

/-- A path is shorter than the number of nodes: those above its end are all different. -/
theorem length_lt (h : t.Spans root addr) (ha : addr p = some a) : p.length < t.entries.length := by
  let above := (List.range (p.length + 1)).map fun k => addr (p.take k)
  have habove : ∀ k, ∃ b, addr (p.take k) = some b := by
    intro k
    apply h.ancestor (q := p.drop k)
    rw [List.take_append_drop]
    exact ha
  have hnodup : above.Nodup := by
    refine List.Nodup.map_on (fun k hk l hl heq => ?_) List.nodup_range
    obtain ⟨b, hb⟩ := habove k
    have htake := congrArg List.length (h.injective hb (heq ▸ hb))
    rw [List.mem_range] at hk hl
    rw [List.length_take, List.length_take] at htake
    omega
  have hsubset : above ⊆ (t.entries.map Prod.fst).map some := by
    intro b hb
    obtain ⟨k, -, rfl⟩ := List.mem_map.mp hb
    obtain ⟨b, hb⟩ := habove k
    obtain ⟨x, hx⟩ := h.node hb
    rw [hb]
    exact List.mem_map_of_mem (List.mem_map_of_mem (f := Prod.fst) (Table.mem_entries_iff.mpr hx))
  have hle := (hnodup.subperm hsubset).length_le
  simp only [above, List.length_map, List.length_range] at hle
  exact hle

/-- Siblings have different names. -/
theorem nodup_names (h : t.Spans root addr) (hx : t.find? a = some x) :
    (x.children.map fun c => (t.find? c).map Node.name).Nodup := by
  obtain ⟨p, ha⟩ := (h.found a).mpr ⟨x, hx⟩
  refine List.Nodup.map_on (fun b hb c hc heq => ?_) (h.nodup hx)
  obtain ⟨m, hm⟩ := (h.children ha hx b).mp hb
  obtain ⟨n, hn⟩ := (h.children ha hx c).mp hc
  obtain ⟨y, hy⟩ := h.node hm
  obtain ⟨z, hz⟩ := h.node hn
  rw [hy, hz, Option.map_some, Option.map_some, (h.linked hm hy).1, (h.linked hn hz).1,
    Option.some_inj] at heq
  rw [heq, hn] at hm
  exact (Option.some_inj.mp hm).symm

variable [DecidableEq N]

theorem hasName_iff (h : t.Spans root addr) (hc : addr (p ++ [n]) = some c) (m : N) :
    t.hasName m c = true ↔ m = n := by
  obtain ⟨x, hx⟩ := h.node hc
  rw [hasName, hx, Option.any_some, (h.linked hc hx).1, decide_eq_true_iff, eq_comm]

theorem row?_eq_none (h : t.Spans root addr) (ha : addr p = some a)
    (hn : addr (p ++ [n]) = none) : t.row? a n = none := by
  obtain ⟨x, hx⟩ := h.node ha
  rw [row?, hx, Option.bind_some, List.findIdx?_eq_none_iff]
  intro c hc
  obtain ⟨m, hm⟩ := (h.children ha hx c).mp hc
  rw [← Bool.not_eq_true, h.hasName_iff hm]
  rintro rfl
  rw [hm] at hn
  cases hn

/-- A child is found by its name. -/
theorem row?_eq_some (h : t.Spans root addr) (ha : addr p = some a)
    (hc : addr (p ++ [n]) = some c) : ∃ i, t.row? a n = some i ∧ t.childAt? a i = some c := by
  obtain ⟨x, hx⟩ := h.node ha
  cases hi : t.row? a n with
  | none =>
    rw [row?, hx, Option.bind_some, List.findIdx?_eq_none_iff] at hi
    have hname := hi c (h.mem_children ha hx hc)
    rw [(h.hasName_iff hc n).mpr rfl] at hname
    cases hname
  | some i =>
    refine ⟨i, rfl, ?_⟩
    rw [row?, hx, Option.bind_some, List.findIdx?_eq_some_iff_getElem] at hi
    obtain ⟨hlt, hname, -⟩ := hi
    obtain ⟨m, hm⟩ := (h.children ha hx _).mp (List.getElem_mem hlt)
    rw [h.hasName_iff hm] at hname
    rw [← hname, hc] at hm
    rw [childAt?, hx, Option.bind_some, List.getElem?_eq_getElem hlt, ← hm]

/-- The search by name finds what is at the path. -/
theorem child?_eq (h : t.Spans root addr) (ha : addr p = some a) (n : N) :
    t.child? a n = addr (p ++ [n]) := by
  cases hc : addr (p ++ [n]) with
  | none => rw [child?, h.row?_eq_none ha hc, Option.bind_none]
  | some c =>
    obtain ⟨i, hi, hchild⟩ := h.row?_eq_some ha hc
    rw [child?, hi, Option.bind_some, hchild]

/-- Names lead along the path. -/
theorem walk_eq (h : t.Spans root addr) : ∀ (q : List N) {p : List N} {a : A}, addr p = some a →
    t.walk a q = addr (p ++ q)
  | [], p, a, ha => by rw [walk, List.append_nil, ha]
  | n :: q, p, a, ha => by
    rw [walk, h.child?_eq ha, List.append_cons p n q]
    cases hc : addr (p ++ [n]) with
    | some c => exact h.walk_eq q hc
    | none =>
      cases hq : addr (p ++ [n] ++ q) with
      | none => rfl
      | some d =>
        obtain ⟨c, hc'⟩ := h.ancestor hq
        rw [hc] at hc'
        cases hc'

end Spans

/-! ## Changes -/

section Changes

variable {t : LinkedTree A N D} {root : A} {addr : List N → Option A} {p : List N} {a c : A} {n : N}
  {x : Node A N D}

def attach (t : LinkedTree A N D) (a c : A) (n : N) (d : D) : LinkedTree A N D :=
  (t.insert c ⟨n, a, [], d⟩).modify a fun x => { x with children := x.children ++ [c] }

/-- The child at a row goes away. -/
def detach (t : LinkedTree A N D) (a : A) (i : Nat) (c : A) : LinkedTree A N D :=
  (t.erase c).modify a fun x => { x with children := x.children.eraseIdx i }

def modifyData (t : LinkedTree A N D) (a : A) (f : D → D) : LinkedTree A N D :=
  t.modify a fun x => { x with data := f x.data }

theorem find?_attach (hx : t.find? a = some x) (hc : t.find? c = none) (d : D) (b : A) :
    (t.attach a c n d).find? b =
      if b = a then some { x with children := x.children ++ [c] }
      else if b = c then some ⟨n, a, [], d⟩ else t.find? b := by
  have hac : a ≠ c := by
    rintro rfl
    rw [hx] at hc
    cases hc
  rw [attach, Table.find?_modify, Table.find?_insert hc, Table.find?_insert hc, if_neg hac, hx]
  rfl

theorem find?_detach (hx : t.find? a = some x) (hac : a ≠ c) (i : Nat) (b : A) :
    (t.detach a i c).find? b =
      if b = a then some { x with children := x.children.eraseIdx i }
      else if b = c then none else t.find? b := by
  rw [detach, Table.find?_modify, Table.find?_erase, Table.find?_erase, if_neg hac, hx]
  rfl

theorem find?_modifyData (hx : t.find? a = some x) (f : D → D) (b : A) :
    (t.modifyData a f).find? b =
      if b = a then some { x with data := f x.data } else t.find? b := by
  rw [modifyData, Table.find?_modify, hx]
  rfl

/-- Data are no links. -/
theorem Spans.modifyData (h : t.Spans root addr) (hx : t.find? a = some x) (f : D → D) :
    (t.modifyData a f).Spans root addr := by
  have hlinks : ∀ {b y}, (t.modifyData a f).find? b = some y →
      ∃ z, t.find? b = some z ∧ y.name = z.name ∧ y.parent = z.parent ∧ y.children = z.children := by
    intro b y hy
    rw [find?_modifyData hx] at hy
    split at hy
    · next hb =>
        cases hy
        exact ⟨x, hb ▸ hx, rfl, rfl, rfl⟩
    · exact ⟨y, hy, rfl, rfl, rfl⟩
  refine ⟨h.root, h.injective, fun b => ?_, fun hb hy => ?_, fun hy => ?_, fun hc hy => ?_⟩
  · rw [h.found, find?_modifyData hx]
    by_cases hb : b = a
    · simp [hb, hx]
    · rw [if_neg hb]
  · obtain ⟨z, hz, -, -, hchildren⟩ := hlinks hy
    rw [hchildren]
    exact h.children hb hz
  · obtain ⟨z, hz, -, -, hchildren⟩ := hlinks hy
    rw [hchildren]
    exact h.nodup hz
  · obtain ⟨z, hz, hname, hparent, -⟩ := hlinks hy
    rw [hname, hparent]
    exact h.linked hc hz

variable [DecidableEq N]

omit [DecidableEq A] in
theorem some_of_ite_some {q : List N} {b : A}
    (hb : (if q = p ++ [n] then none else addr q) = some b) : q ≠ p ++ [n] ∧ addr q = some b := by
  split at hb
  · cases hb
  · next hq => exact ⟨hq, hb⟩

/-- An attached leaf is at a path of its own. -/
theorem Spans.attach (h : t.Spans root addr) (ha : addr p = some a) (hn : addr (p ++ [n]) = none)
    (hc : t.find? c = none) (d : D) :
    (t.attach a c n d).Spans root (fun q => if q = p ++ [n] then some c else addr q) := by
  obtain ⟨x, hx⟩ := h.node ha
  have hfind := find?_attach (n := n) hx hc d
  have hfresh : ∀ {q b}, addr q = some b → b ≠ c := by
    rintro q _ hb rfl
    obtain ⟨y, hy⟩ := h.node hb
    rw [hc] at hy
    cases hy
  have hkeep : ∀ {q b}, addr q = some b → q ≠ p ++ [n] := by
    rintro _ b hb rfl
    rw [hn] at hb
    cases hb
  have hac : a ≠ c := hfresh ha
  constructor
  case root => rw [if_neg (hkeep h.root), h.root]
  case injective =>
    intro q r b hq hr
    split at hq <;> split at hr
    · next hq' hr' => rw [hq', hr']
    · cases hq
      exact absurd rfl (hfresh hr)
    · cases hr
      exact absurd rfl (hfresh hq)
    · exact h.injective hq hr
  case found =>
    intro b
    by_cases hb : b = c
    · rw [hb]
      refine iff_of_true ⟨p ++ [n], if_pos rfl⟩ ⟨⟨n, a, [], d⟩, ?_⟩
      rw [hfind, if_neg hac.symm, if_pos rfl]
    · have hpaths : (∃ q, (if q = p ++ [n] then some c else addr q) = some b) ↔
          ∃ q, addr q = some b := by
        refine exists_congr fun q => ?_
        by_cases hq : q = p ++ [n]
        · rw [if_pos hq, hq, hn, Option.some_inj]
          simp [Ne.symm hb]
        · rw [if_neg hq]
      rw [hpaths, h.found, hfind, if_neg hb]
      by_cases hba : b = a
      · simp [hba, hx]
      · rw [if_neg hba]
  case children =>
    intro q b y hb hy d
    rw [hfind] at hy
    split at hb
    · next hq =>
        -- the leaf itself
        cases hb
        rw [if_neg hac.symm, if_pos rfl] at hy
        cases hy
        refine iff_of_false List.not_mem_nil ?_
        rintro ⟨m, hm⟩
        rw [if_neg (by simp [hq]), hq] at hm
        obtain ⟨b, hb⟩ := h.ancestor hm
        exact hkeep hb rfl
    · rw [if_neg (hfresh hb)] at hy
      by_cases hba : b = a
      · rw [if_pos hba] at hy
        cases hy
        have hq : q = p := h.injective (hba ▸ hb) ha
        rw [hq, List.mem_append, List.mem_singleton, h.children ha hx]
        constructor
        · rintro (⟨m, hm⟩ | rfl)
          · exact ⟨m, by rw [if_neg (hkeep hm), hm]⟩
          · exact ⟨n, if_pos rfl⟩
        · rintro ⟨m, hm⟩
          split at hm
          · cases hm
            exact .inr rfl
          · exact .inl ⟨m, hm⟩
      · rw [if_neg hba] at hy
        rw [h.children hb hy]
        refine exists_congr fun m => ?_
        rw [if_neg]
        intro heq
        have hq := (List.append_inj' heq rfl).1
        rw [hq, ha] at hb
        exact hba (Option.some_inj.mp hb).symm
  case nodup =>
    intro b y hy
    rw [hfind] at hy
    split at hy
    · cases hy
      have hmem : c ∉ x.children := by
        intro hmem
        obtain ⟨m, hm⟩ := (h.children ha hx c).mp hmem
        exact hfresh hm rfl
      exact (List.nodup_append_comm.mp (List.nodup_cons.mpr ⟨hmem, h.nodup hx⟩))
    · split at hy
      · cases hy
        exact List.nodup_nil
      · exact h.nodup hy
  case linked =>
    intro q m b y hb hy
    rw [hfind] at hy
    split at hb
    · next heq =>
        cases hb
        obtain ⟨rfl, hm⟩ := List.append_inj' heq rfl
        rw [if_neg hac.symm, if_pos rfl] at hy
        cases hy
        refine ⟨(List.singleton_inj.mp hm).symm, ?_⟩
        rw [if_neg (hkeep ha), ha]
    · rw [if_neg (hfresh hb)] at hy
      obtain ⟨z, hz, hname, hparent⟩ : ∃ z, t.find? b = some z ∧ y.name = z.name ∧
          y.parent = z.parent := by
        split at hy
        · next hba =>
            cases hy
            exact ⟨x, hba ▸ hx, rfl, rfl⟩
        · exact ⟨y, hy, rfl, rfl⟩
      have hlinked := h.linked hb hz
      rw [hname, hparent, if_neg (hkeep hlinked.2)]
      exact hlinked

/-- What is left when a leaf is detached. -/
theorem Spans.detach (h : t.Spans root addr) (ha : addr p = some a) (hc : addr (p ++ [n]) = some c)
    {i : Nat} (hi : t.childAt? a i = some c) {y : Node A N D} (hy : t.find? c = some y)
    (hleaf : y.children = []) :
    (t.detach a i c).Spans root (fun q => if q = p ++ [n] then none else addr q) := by
  obtain ⟨x, hx, hi⟩ := Option.bind_eq_some_iff.mp hi
  have hac : a ≠ c := by
    rintro rfl
    have hpath := congrArg List.length (h.injective ha hc)
    rw [List.length_append, List.length_singleton] at hpath
    omega
  have hfind := find?_detach hx hac i
  have hother : ∀ {q b}, addr q = some b → q ≠ p ++ [n] → b ≠ c := by
    rintro q _ hb hq rfl
    exact hq (h.injective hb hc)
  constructor
  case root =>
    rw [if_neg (by simp), h.root]
  case injective =>
    intro q r b hq hr
    exact h.injective (some_of_ite_some hq).2 (some_of_ite_some hr).2
  case found =>
    intro b
    by_cases hb : b = c
    · rw [hb, hfind, if_neg hac.symm, if_pos rfl]
      refine iff_of_false ?_ (by rintro ⟨_, ⟨⟩⟩)
      rintro ⟨q, hq⟩
      obtain ⟨hne, hq⟩ := some_of_ite_some hq
      exact hne (h.injective hq hc)
    · have hpaths : (∃ q, (if q = p ++ [n] then none else addr q) = some b) ↔
          ∃ q, addr q = some b := by
        refine exists_congr fun q => ?_
        by_cases hq : q = p ++ [n]
        · rw [if_pos hq, hq, hc, Option.some_inj]
          simp [Ne.symm hb]
        · rw [if_neg hq]
      rw [hpaths, h.found, hfind, if_neg hb]
      by_cases hba : b = a
      · simp [hba, hx]
      · rw [if_neg hba]
  case children =>
    intro q b z hb hz d
    obtain ⟨hq, hb⟩ := some_of_ite_some hb
    rw [hfind, if_neg (hother hb hq)] at hz
    by_cases hba : b = a
    · rw [if_pos hba] at hz
      cases hz
      obtain rfl : q = p := h.injective (hba ▸ hb) ha
      obtain ⟨hlt, hget⟩ := List.getElem?_eq_some_iff.mp hi
      have hmem : d ∈ x.children.eraseIdx i ↔ d ≠ c ∧ d ∈ x.children := by
        rw [← (h.nodup hx).erase_getElem i hlt, (h.nodup hx).mem_erase_iff, hget]
      rw [hmem, h.children ha hx]
      constructor
      · rintro ⟨hd, m, hm⟩
        refine ⟨m, ?_⟩
        rw [if_neg, hm]
        intro heq
        rw [heq, hc] at hm
        exact hd (Option.some_inj.mp hm).symm
      · rintro ⟨m, hm⟩
        obtain ⟨hne, hm⟩ := some_of_ite_some hm
        exact ⟨hother hm hne, m, hm⟩
    · rw [if_neg hba] at hz
      rw [h.children hb hz]
      refine exists_congr fun m => ?_
      rw [if_neg]
      intro heq
      have hq := (List.append_inj' heq rfl).1
      rw [hq, ha] at hb
      exact hba (Option.some_inj.mp hb).symm
  case nodup =>
    intro b z hz
    rw [hfind] at hz
    split at hz
    · cases hz
      exact (h.nodup hx).sublist (List.eraseIdx_sublist _ _)
    · split at hz
      · cases hz
      · exact h.nodup hz
  case linked =>
    intro q m b z hb hz
    obtain ⟨hq, hb⟩ := some_of_ite_some hb
    rw [hfind, if_neg (hother hb hq)] at hz
    obtain ⟨w, hw, hname, hparent⟩ : ∃ w, t.find? b = some w ∧ z.name = w.name ∧
        z.parent = w.parent := by
      split at hz
      · next hba =>
          cases hz
          exact ⟨x, hba ▸ hx, rfl, rfl⟩
      · exact ⟨z, hz, rfl, rfl⟩
    have hlinked := h.linked hb hw
    rw [hname, hparent, if_neg]
    · exact hlinked
    · -- a leaf is nobody's parent
      rintro rfl
      have hmem := h.mem_children hc hy hb
      rw [hleaf] at hmem
      cases hmem

end Changes

end LinkedTree

end TweakTool.Lib

import TweakTool.Lib.LinkedTree

/-! # Shapes

The ordered tree without names that an observer builds who is only told at which places leaves come
and go. As long as every change of a linked tree is one attached or detached leaf, reported with the
rows that lead to its parent, the observer's tree keeps the shape of the linked one. -/

namespace TweakTool.Lib

inductive Shape where
  | node (children : List Shape)

namespace Shape

def leaf : Shape := .node []

/-- Change the children of the node to which the rows lead. -/
def modifyAt (f : List Shape → Option (List Shape)) : List Nat → Shape → Option Shape
  | [], .node ms => (f ms).map .node
  | i :: rows, .node ms =>
    ms[i]?.bind fun m => (modifyAt f rows m).map fun m' => .node (ms.set i m')

def insertLeaf (i : Nat) (ms : List Shape) : Option (List Shape) :=
  if i ≤ ms.length then some (ms.insertIdx i leaf) else none

def removeLeaf (i : Nat) (ms : List Shape) : Option (List Shape) :=
  match ms[i]? with
  | some (.node []) => some (ms.eraseIdx i)
  | _ => none

end Shape

namespace LinkedTree

variable {A N D : Type} [DecidableEq A]

inductive HasShape (t : LinkedTree A N D) : A → Shape → Prop where
  | node {a x ms} (find : t.find? a = some x) (length : ms.length = x.children.length)
      (child : ∀ (i : Nat) c m, x.children[i]? = some c → ms[i]? = some m → HasShape t c m) :
      HasShape t a (.node ms)

variable {t t' : LinkedTree A N D} {root : A} {addr : List N → Option A} {p : List N} {a c : A}
  {n : N} {x : Node A N D}

theorem HasShape.leaf (hx : t.find? a = some x) (hchildren : x.children = []) :
    t.HasShape a .leaf := by
  refine .node hx (by rw [hchildren]; rfl) ?_
  intro i c m hc
  rw [hchildren] at hc
  cases hc

/-- The shape depends on the links only. -/
theorem HasShape.modifyData {m : Shape} (h : t.HasShape a m) {b : A} (hx : t.find? b = some x)
    (f : D → D) : (t.modifyData b f).HasShape a m := by
  induction h with
  | @node a y ms hy hlength _ ih =>
    by_cases ha : a = b
    · have hyx : y = x := by
        rw [ha, hx] at hy
        exact (Option.some_inj.mp hy).symm
      refine .node (x := { x with data := f x.data }) ?_ (hyx ▸ hlength) (hyx ▸ ih)
      rw [find?_modifyData hx, if_pos ha]
    · refine .node ?_ hlength ih
      rw [find?_modifyData hx, if_neg ha, hy]

/-- A change elsewhere is not seen. -/
theorem HasShape.frame (hspans : t.Spans root addr) {m : Shape} (h : t.HasShape a m)
    (ha : addr p = some a)
    (hsame : ∀ q b, p <+: q → addr q = some b → t'.find? b = t.find? b) : t'.HasShape a m := by
  induction h generalizing p with
  | @node a x ms hx hlength _ ih =>
    refine .node ((hsame p a (List.prefix_refl p) ha).trans hx) hlength ?_
    intro i c m hc hm
    obtain ⟨n, hn⟩ := (hspans.children ha hx c).mp (List.mem_of_getElem? hc)
    refine ih i c m hc hm hn fun q b hq => hsame q b ?_
    exact (List.prefix_append p [n]).trans hq

/-- A change of one node's children is seen at the end of the rows that lead to it. -/
theorem HasShape.modifyAt (hspans : t.Spans root addr) (ha : addr p = some a)
    (hsame : ∀ q b, ¬ p <+: q → addr q = some b → t'.find? b = t.find? b)
    {f : List Shape → Option (List Shape)}
    (hlocal : ∀ ms, t.HasShape a (.node ms) → ∃ ms', f ms = some ms' ∧ t'.HasShape a (.node ms')) :
    ∀ {rows : List Nat} {q : List N} {b : A} {m : Shape}, addr q = some b →
      t.descend b rows = some a → t.HasShape b m →
      ∃ m', m.modifyAt f rows = some m' ∧ t'.HasShape b m' := by
  intro rows
  induction rows with
  | nil =>
    intro q b m _ hdescend hm
    cases hdescend
    obtain ⟨ms⟩ := m
    obtain ⟨ms', hms', hshape⟩ := hlocal ms hm
    exact ⟨.node ms', by rw [Shape.modifyAt, hms', Option.map_some], hshape⟩
  | cons i rows ih =>
    intro q b m hb hdescend hm
    obtain ⟨c, hc, hdescend⟩ := Option.bind_eq_some_iff.mp hdescend
    obtain ⟨n, hn⟩ := hspans.of_childAt? hb hc
    obtain ⟨r, hr⟩ := hspans.of_descend hn hdescend
    have hp : p = q ++ [n] ++ r := hspans.injective ha hr
    obtain ⟨y, hy, hi⟩ := Option.bind_eq_some_iff.mp hc
    cases hm with
    | @node _ x ms hx hlength hchild =>
      obtain rfl : x = y := by
        rw [hx] at hy
        exact Option.some_inj.mp hy
      obtain ⟨hlt, hget⟩ := List.getElem?_eq_some_iff.mp hi
      obtain ⟨m, hm⟩ : ∃ m, ms[i]? = some m := ⟨_, List.getElem?_eq_getElem (hlength ▸ hlt)⟩
      obtain ⟨m', hm', hshape⟩ := ih hn hdescend (hchild i c m hi hm)
      refine ⟨.node (ms.set i m'), by rw [Shape.modifyAt, hm, Option.bind_some, hm']; rfl, ?_⟩
      refine .node (x := x) ?_ (by rw [List.length_set, hlength]) ?_
      · rw [hsame q b ?_ hb, hx]
        intro hstart
        have := hstart.length_le
        rw [hp, List.length_append, List.length_append, List.length_singleton] at this
        omega
      · intro j d k hd hk
        rw [List.getElem?_set] at hk
        split at hk
        · next hij =>
            rw [if_pos (hlength ▸ hlt)] at hk
            cases hk
            rw [← hij, hi] at hd
            cases hd
            exact hshape
        · next hij =>
            -- the other children are not above the node that changes
            obtain ⟨l, hl⟩ := (hspans.children hb hx d).mp (List.mem_of_getElem? hd)
            refine (hchild j d k hd hk).frame hspans hl fun u e hu => hsame u e ?_
            intro hstart
            have hlu := (List.prefix_append (q ++ [n]) r).trans (hp ▸ hstart)
            have hnl : q ++ [n] = q ++ [l] :=
              (List.prefix_of_prefix_length_le hlu hu (by simp)).eq_of_length (by simp)
            rw [hnl, hl] at hn
            cases hn
            obtain ⟨hjlt, hjget⟩ := List.getElem?_eq_some_iff.mp hd
            exact hij ((hspans.nodup hx).getElem_inj_iff.mp (hget.trans hjget.symm))

/-- An attached leaf, as it is reported. -/
theorem HasShape.attach (hspans : t.Spans root addr) (ha : addr p = some a) (hx : t.find? a = some x)
    (hc : t.find? c = none) (d : D) {rows : List Nat} (hrows : t.descend root rows = some a)
    {m : Shape} (h : t.HasShape root m) :
    ∃ m', m.modifyAt (Shape.insertLeaf x.children.length) rows = some m' ∧
      (t.attach a c n d).HasShape root m' := by
  have hsame : ∀ q b, q ≠ p → addr q = some b → (t.attach a c n d).find? b = t.find? b := by
    intro q b hq hb
    rw [find?_attach hx hc, if_neg, if_neg]
    · rintro rfl
      obtain ⟨y, hy⟩ := hspans.node hb
      rw [hc] at hy
      cases hy
    · rintro rfl
      exact hq (hspans.injective hb ha)
  refine HasShape.modifyAt hspans ha (fun q b hq => hsame q b ?_) ?_ hspans.root hrows h
  · rintro rfl
    exact hq (List.prefix_refl q)
  · intro ms hms
    cases hms with
    | @node _ y _ hy hlength hchild =>
      obtain rfl : x = y := by
        rw [hx] at hy
        exact Option.some_inj.mp hy
      refine ⟨ms ++ [.leaf], ?_, ?_⟩
      · rw [Shape.insertLeaf, if_pos (Nat.le_of_eq hlength.symm), ← hlength,
          List.insertIdx_length_self]
      refine .node (x := { x with children := x.children ++ [c] }) ?_ (by simp [hlength]) ?_
      · rw [find?_attach hx hc, if_pos rfl]
      intro i b m hb hm
      by_cases hi : i < ms.length
      · rw [List.getElem?_append_left (hlength ▸ hi)] at hb
        rw [List.getElem?_append_left hi] at hm
        obtain ⟨k, hk⟩ := (hspans.children ha hx b).mp (List.mem_of_getElem? hb)
        refine (hchild i b m hb hm).frame hspans hk fun q e hq => hsame q e ?_
        rintro rfl
        have := hq.length_le
        rw [List.length_append, List.length_singleton] at this
        omega
      · -- the new one
        rw [List.getElem?_append_right (Nat.le_of_not_lt hi), List.getElem?_singleton] at hm
        rw [List.getElem?_append_right (hlength ▸ Nat.le_of_not_lt hi), ← hlength,
          List.getElem?_singleton] at hb
        split at hb
        · next hzero =>
            rw [if_pos hzero] at hm
            cases hb
            cases hm
            refine .leaf (x := ⟨n, a, [], d⟩) ?_ rfl
            rw [find?_attach hx hc, if_pos rfl, if_neg]
            rintro rfl
            rw [hx] at hc
            cases hc
        · cases hb

/-- A detached leaf, as it is reported. -/
theorem HasShape.detach (hspans : t.Spans root addr) (ha : addr p = some a)
    (hc : addr (p ++ [n]) = some c) {i : Nat} (hi : t.childAt? a i = some c) {y : Node A N D}
    (hy : t.find? c = some y) (hleaf : y.children = []) {rows : List Nat}
    (hrows : t.descend root rows = some a) {m : Shape} (h : t.HasShape root m) :
    ∃ m', m.modifyAt (Shape.removeLeaf i) rows = some m' ∧ (t.detach a i c).HasShape root m' := by
  obtain ⟨x, hx, hi⟩ := Option.bind_eq_some_iff.mp hi
  have hac : a ≠ c := by
    rintro rfl
    have hpath := congrArg List.length (hspans.injective ha hc)
    rw [List.length_append, List.length_singleton] at hpath
    omega
  have hsame : ∀ q b, q ≠ p → q ≠ p ++ [n] → addr q = some b →
      (t.detach a i c).find? b = t.find? b := by
    intro q b hq hqn hb
    rw [find?_detach hx hac, if_neg, if_neg]
    · rintro rfl
      exact hqn (hspans.injective hb hc)
    · rintro rfl
      exact hq (hspans.injective hb ha)
  refine HasShape.modifyAt hspans ha (fun q b hq => hsame q b ?_ ?_) ?_ hspans.root hrows h
  · rintro rfl
    exact hq (List.prefix_refl q)
  · rintro rfl
    exact hq (List.prefix_append p [n])
  · intro ms hms
    cases hms with
    | @node _ z _ hz hlength hchild =>
      obtain rfl : x = z := by
        rw [hx] at hz
        exact Option.some_inj.mp hz
      obtain ⟨hlt, hget⟩ := List.getElem?_eq_some_iff.mp hi
      have hat : ms[i]? = some .leaf := by
        rw [List.getElem?_eq_getElem (hlength ▸ hlt)]
        cases hm : ms[i] with
        | node ks =>
          have hshape := hchild i c (.node ks) hi (by rw [List.getElem?_eq_getElem (hlength ▸ hlt), hm])
          cases hshape with
          | @node _ w _ hw hlen _ =>
            rw [hy] at hw
            cases hw
            rw [hleaf, List.length_nil, List.length_eq_zero_iff] at hlen
            rw [hlen, Shape.leaf]
      refine ⟨ms.eraseIdx i, by rw [Shape.removeLeaf, hat]; rfl, ?_⟩
      refine .node (x := { x with children := x.children.eraseIdx i }) ?_ ?_ ?_
      · rw [find?_detach hx hac, if_pos rfl]
      · rw [List.length_eraseIdx, List.length_eraseIdx, hlength]
      intro j b m hb hm
      -- every row of the rest was another row before
      obtain ⟨k, hki, hb, hm⟩ : ∃ k, k ≠ i ∧ x.children[k]? = some b ∧ ms[k]? = some m := by
        rw [List.getElem?_eraseIdx] at hb hm
        split at hb
        · next hj =>
            rw [if_pos hj] at hm
            exact ⟨j, Nat.ne_of_lt hj, hb, hm⟩
        · next hj =>
            rw [if_neg hj] at hm
            exact ⟨j + 1, by omega, hb, hm⟩
      obtain ⟨l, hl⟩ := (hspans.children ha hx b).mp (List.mem_of_getElem? hb)
      refine (hchild k b m hb hm).frame hspans hl fun q e hq => hsame q e ?_ ?_
      · rintro rfl
        have := hq.length_le
        rw [List.length_append, List.length_singleton] at this
        omega
      · rintro rfl
        have hln : p ++ [l] = p ++ [n] := hq.eq_of_length (by simp)
        rw [hln, hc] at hl
        cases hl
        obtain ⟨hklt, hkget⟩ := List.getElem?_eq_some_iff.mp hb
        exact hki ((hspans.nodup hx).getElem_inj_iff.mp (hkget.trans hget.symm))

end LinkedTree

end TweakTool.Lib

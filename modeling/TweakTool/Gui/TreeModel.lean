import TweakTool.Gui.UriTree
import TweakTool.Lib.Shape

/-! # The tree model of the user interface

`TweakTreeModel.cpp`: the uri tree as Qt's views see it. A view knows an item by its `QModelIndex`, the
row of the item in its parent together with a pointer, and is told of every row that comes or goes.
Both rest on searches by name, upwards from an item (`itemIndex`) and in the list of its siblings
(`childIndex`). -/

namespace TweakTool.Gui

open TweakTool.Lib

/-! ## What the tree tells about its items -/

namespace Items

def childCount (items : Items) (item : Pointer) : Option Nat :=
  (items.find? item).map (·.children.length)

/-- There is no item before the first and after the last. -/
def child (items : Items) (item : Pointer) (index : Int) : Option Pointer :=
  if 0 ≤ index then items.childAt? item index.toNat else none

def parentItem (items : Items) (item : Pointer) : Option Pointer :=
  (items.find? item).map Node.parent

def childIndex (items : Items) (parent item : Pointer) : Option Nat :=
  (items.find? item).bind fun n => items.row? parent n.name

end Items

/-! ## Indices -/

structure QModelIndex where
  row : Int
  column : Int
  internalPointer : Option Pointer

def QModelIndex.none : QModelIndex := ⟨-1, -1, .none⟩

def QModelIndex.isValid (i : QModelIndex) : Bool := 0 ≤ i.row ∧ 0 ≤ i.column

namespace TweakTreeModel

def index (tree : Items) (row column : Int) (parent : QModelIndex) : Option QModelIndex :=
  if parent.isValid ∧ parent.column ≠ 0 then some .none
  else do
    let parentItem := if parent.isValid then parent.internalPointer.getD rootItem else rootItem
    let count ← Items.childCount tree parentItem
    if row < count then
      let childItem ← Items.child tree parentItem row
      some ⟨row, column, some childItem⟩
    else some .none

def parent (tree : Items) (index : QModelIndex) : Option QModelIndex :=
  match index.internalPointer with
  | none => some .none
  | some childItem =>
    if ¬ index.isValid then some .none
    else do
      guard (childItem ≠ rootItem)
      let parentItem ← Items.parentItem tree childItem
      if parentItem = rootItem then some .none
      else
        let parentOfParentItem ← Items.parentItem tree parentItem
        let row ← Items.childIndex tree parentOfParentItem parentItem
        some ⟨row, 0, some parentItem⟩

/-- The recursion of `itemIndex`. -/
def itemIndexLoop (tree : Items) : Nat → Pointer → Option QModelIndex
  | 0, _ => none
  | fuel + 1, item =>
    if item = rootItem then some .none
    else do
      let parent ← Items.parentItem tree item
      let row ← Items.childIndex tree parent item
      let parentIndex ← itemIndexLoop tree fuel parent
      index tree row 0 parentIndex

def itemIndex (tree : Items) (item : Pointer) : Option QModelIndex :=
  itemIndexLoop tree tree.entries.length item

/-- The rows by which a view gets from the root to an index. -/
def rowsLoop (tree : Items) : Nat → QModelIndex → Option (List Nat)
  | 0, _ => none
  | fuel + 1, i =>
    if i.isValid then do
      let up ← parent tree i
      let rows ← rowsLoop tree fuel up
      some (rows ++ [i.row.toNat])
    else some []

def rows (tree : Items) (i : QModelIndex) : Option (List Nat) :=
  rowsLoop tree tree.entries.length i

/-! ## Indices and paths -/

inductive Locates (tree : Items) (addr : Path → Option Pointer) : Path → QModelIndex → Prop where
  | root : Locates tree addr [] .none
  | child {p n a c} {i : Nat} : addr p = some a → addr (p ++ [n]) = some c →
      tree.row? a n = some i → tree.childAt? a i = some c →
      Locates tree addr (p ++ [n]) ⟨i, 0, some c⟩

variable {tree : Items} {addr : Path → Option Pointer} {p : Path} {n : QString} {a c : Pointer}
  {i : Nat} {j : QModelIndex}

/-- Every item has an index. -/
theorem exists_locates (h : tree.Spans rootItem addr) (ha : addr p = some a) :
    ∃ j, Locates tree addr p j := by
  cases p using List.reverseRecOn with
  | nil => exact ⟨_, .root⟩
  | append_singleton p n =>
    obtain ⟨b, hb⟩ := h.ancestor ha
    obtain ⟨i, hrow, hchild⟩ := h.row?_eq_some hb ha
    exact ⟨_, .child hb ha hrow hchild⟩

/-- `index` leads from an item to its child. -/
theorem index_of_locates (h : tree.Spans rootItem addr) (hj : Locates tree addr p j)
    (ha : addr p = some a) (hchild : tree.childAt? a i = some c) :
    index tree i 0 j = some ⟨i, 0, some c⟩ := by
  have hitem : (if j.isValid then j.internalPointer.getD rootItem else rootItem) = a ∧
      ¬ (j.isValid ∧ j.column ≠ 0) := by
    cases hj with
    | root =>
      rw [h.root] at ha
      exact ⟨Option.some_inj.mp ha, by decide⟩
    | child hb hc hrow hi =>
      rw [hc] at ha
      cases ha
      exact ⟨if_pos (by simp [QModelIndex.isValid]), fun hne => hne.2 rfl⟩
  obtain ⟨x, hx, hi⟩ := Option.bind_eq_some_iff.mp hchild
  have hlt := (List.getElem?_eq_some_iff.mp hi).1
  rw [index, if_neg hitem.2]
  dsimp only
  rw [hitem.1, Items.childCount, hx]
  simp [hlt, Items.child, hchild]

theorem childIndex_eq (h : tree.Spans rootItem addr) (hc : addr (p ++ [n]) = some c)
    (hrow : tree.row? a n = some i) : Items.childIndex tree a c = some i := by
  obtain ⟨x, hx⟩ := h.node hc
  rw [Items.childIndex, hx, Option.bind_some, (h.linked hc hx).1, hrow]

/-- The link of a child leads back to its parent. -/
theorem parentItem_eq (h : tree.Spans rootItem addr) (ha : addr p = some a)
    (hc : addr (p ++ [n]) = some c) : Items.parentItem tree c = some a := by
  obtain ⟨x, hx⟩ := h.node hc
  have hparent := (h.linked hc hx).2
  rw [ha] at hparent
  rw [Items.parentItem, hx, Option.map_some, hparent]

theorem ne_rootItem (h : tree.Spans rootItem addr) (hc : addr (p ++ [n]) = some c) :
    c ≠ rootItem := by
  rintro rfl
  have hnil := h.injective hc h.root
  simp at hnil

/-- The parent of an index is the index of the parent. -/
theorem parent_of_locates (h : tree.Spans rootItem addr) (hj : Locates tree addr (p ++ [n]) j) :
    ∃ k, parent tree j = some k ∧ Locates tree addr p k := by
  generalize hq : p ++ [n] = q at hj
  cases hj with
  | root => simp at hq
  | @child p' n' a c i ha hc hrow hchild =>
    obtain ⟨rfl, hn⟩ := List.append_inj' hq rfl
    cases hn
    have hvalid : (⟨i, 0, some c⟩ : QModelIndex).isValid = true := by
      simp [QModelIndex.isValid]
    rw [parent]
    dsimp only
    rw [if_neg (not_not.mpr hvalid)]
    simp only [guard, if_pos (ne_rootItem h hc), parentItem_eq h ha hc]
    cases p using List.reverseRecOn with
    | nil =>
      rw [h.root] at ha
      cases ha
      exact ⟨.none, rfl, .root⟩
    | append_singleton q m =>
      obtain ⟨b, hb⟩ := h.ancestor ha
      obtain ⟨k, hk, hkchild⟩ := h.row?_eq_some hb ha
      refine ⟨⟨k, 0, some a⟩, ?_, .child hb ha hk hkchild⟩
      simp [ne_rootItem h ha, parentItem_eq h hb ha, childIndex_eq h ha hk]

private theorem itemIndexLoop_of_locates (h : tree.Spans rootItem addr) : ∀ {fuel : Nat} {p : Path}
    {a : Pointer} {j : QModelIndex}, p.length < fuel → addr p = some a → Locates tree addr p j →
    itemIndexLoop tree fuel a = some j
  | fuel + 1, p, a, j, hfuel, ha, hj => by
    cases hj with
    | root =>
      rw [h.root] at ha
      cases ha
      rw [itemIndexLoop, if_pos rfl]
    | @child p n b c i hb hc hrow hchild =>
      rw [hc] at ha
      cases ha
      obtain ⟨k, hk⟩ := exists_locates h hb
      rw [List.length_append, List.length_singleton] at hfuel
      have hup := itemIndexLoop_of_locates h (Nat.lt_of_succ_lt_succ hfuel) hb hk
      rw [itemIndexLoop, if_neg (ne_rootItem h hc)]
      simp [parentItem_eq h hb hc, childIndex_eq h hc hrow, hup, index_of_locates h hk hb hchild]

/-- `itemIndex` finds the index of an item. -/
theorem itemIndex_of_locates (h : tree.Spans rootItem addr) (ha : addr p = some a)
    (hj : Locates tree addr p j) : itemIndex tree a = some j :=
  itemIndexLoop_of_locates h (h.length_lt ha) ha hj

/-- The rows of an index lead to its item. -/
theorem rowsLoop_of_locates (h : tree.Spans rootItem addr) : ∀ {fuel : Nat} {p : Path} {a : Pointer}
    {j : QModelIndex}, p.length < fuel → addr p = some a → Locates tree addr p j →
    ∃ rows, rowsLoop tree fuel j = some rows ∧ tree.descend rootItem rows = some a
  | fuel + 1, p, a, j, hfuel, ha, hj => by
    cases hj with
    | root =>
      rw [h.root] at ha
      exact ⟨[], rfl, ha⟩
    | @child p n b c i hb hc hrow hchild =>
      rw [hc] at ha
      cases ha
      obtain ⟨k, hparent, hk⟩ := parent_of_locates h (.child hb hc hrow hchild)
      rw [List.length_append, List.length_singleton] at hfuel
      obtain ⟨rows, hrows, hdescend⟩ :=
        rowsLoop_of_locates h (Nat.lt_of_succ_lt_succ hfuel) hb hk
      refine ⟨rows ++ [i], ?_, ?_⟩
      · rw [rowsLoop, if_pos (by simp [QModelIndex.isValid])]
        simp [hparent, hrows]
      · rw [LinkedTree.descend_append, hdescend, Option.bind_some, LinkedTree.descend, hchild]
        rfl

private theorem rows_itemIndex (h : tree.Spans rootItem addr) (ha : addr p = some a) :
    ∃ j rows', itemIndex tree a = some j ∧ rows tree j = some rows' ∧
      tree.descend rootItem rows' = some a := by
  obtain ⟨j, hj⟩ := exists_locates h ha
  obtain ⟨rows', hrows, hdescend⟩ := rowsLoop_of_locates h (h.length_lt ha) ha hj
  exact ⟨j, rows', itemIndex_of_locates h ha hj, hrows, hdescend⟩

/-! ## Agreement -/

/-- `itemIndex`, `index` and `parent` tell the same about every item. -/
structure Agrees (tree : Items) : Prop where
  down : ∀ {item x}, tree.find? item = some x → ∃ p, itemIndex tree item = some p ∧
    ∀ r : Nat, r < x.children.length → ∃ c i, Items.child tree item r = some c ∧
      itemIndex tree c = some i ∧ index tree r 0 p = some i ∧ parent tree i = some p
  up : ∀ {item x}, tree.find? item = some x → item ≠ rootItem → ∃ i p,
    itemIndex tree item = some i ∧ i.internalPointer = some item ∧ parent tree i = some p ∧
      index tree i.row 0 p = some i

/-- There is one index for an item. -/
theorem Locates.unique {k : QModelIndex} (hj : Locates tree addr p j) (hk : Locates tree addr p k) :
    j = k := by
  cases hj with
  | root =>
    generalize hq : ([] : Path) = q at hk
    cases hk with
    | root => rfl
    | child => simp at hq
  | @child p n a c i ha hc hrow _ =>
    generalize hq : p ++ [n] = q at hk
    cases hk with
    | root => simp at hq
    | child ha' hc' hrow' _ =>
      obtain ⟨rfl, hn⟩ := List.append_inj' hq rfl
      cases hn
      rw [ha] at ha'
      cases ha'
      rw [hc] at hc'
      cases hc'
      rw [hrow] at hrow'
      cases hrow'
      rfl

private theorem agrees_of_spans (h : tree.Spans rootItem addr) : Agrees tree := by
  constructor
  · intro item x hx
    obtain ⟨q, hq⟩ := (h.found item).mpr ⟨x, hx⟩
    obtain ⟨p, hp⟩ := exists_locates h hq
    refine ⟨p, itemIndex_of_locates h hq hp, fun r hr => ?_⟩
    have hchild : tree.childAt? item r = some x.children[r] := by
      rw [LinkedTree.childAt?, hx, Option.bind_some, List.getElem?_eq_getElem hr]
    obtain ⟨n, hn⟩ := h.of_childAt? hq hchild
    obtain ⟨i, hi⟩ := exists_locates h hn
    obtain ⟨k, hk, hlocates⟩ := parent_of_locates h hi
    have hindex := index_of_locates h hp hq hchild
    refine ⟨x.children[r], i, ?_, itemIndex_of_locates h hn hi, ?_, ?_⟩
    · rw [Items.child, if_pos (by omega)]
      exact hchild
    · -- the row that is found by name is the row itself
      rw [hindex]
      generalize hqn : q ++ [n] = path at hi
      cases hi with
      | root => simp at hqn
      | @child q' n' a c r' ha hc hrow hchild' =>
        obtain ⟨rfl, hnn⟩ := List.append_inj' hqn rfl
        cases hnn
        rw [hq] at ha
        cases ha
        rw [hn] at hc
        cases hc
        rw [LinkedTree.childAt?, hx, Option.bind_some] at hchild'
        obtain ⟨hlt, hget⟩ := List.getElem?_eq_some_iff.mp hchild'
        rw [(h.nodup hx).getElem_inj_iff.mp hget]
    · rw [hk, hlocates.unique hp]
  · intro item x hx hroot
    obtain ⟨q, hq⟩ := (h.found item).mpr ⟨x, hx⟩
    obtain ⟨i, hi⟩ := exists_locates h hq
    have hitem := itemIndex_of_locates h hq hi
    cases hi with
    | root =>
      rw [h.root] at hq
      cases hq
      exact absurd rfl hroot
    | @child q n a c r ha hc hrow hchild =>
      rw [hc] at hq
      cases hq
      obtain ⟨p, hparent, hp⟩ := parent_of_locates h (.child ha hc hrow hchild)
      exact ⟨_, p, hitem, rfl, hparent, index_of_locates h hp ha hchild⟩

end TweakTreeModel

/-! ## The mirror of a view -/

namespace Signal

open TweakTreeModel

/-- What a view makes of `beginInsertRows` and `beginRemoveRows`. -/
def mirror (m : Shape) (signal : Signal) : Option Shape := do
  let parentIndex ← itemIndex signal.before signal.parent
  let rows ← rows signal.before parentIndex
  match signal.change with
  | .newItem => m.modifyAt (Shape.insertLeaf signal.index) rows
  | .removingItem => m.modifyAt (Shape.removeLeaf signal.index) rows

/-- A pair of signals is true for a view with the mirror `m`. -/
structure Truthful (m : Shape) (signal : Signal) : Prop where
  /-- The parent is an item of the tree. -/
  parent : ∃ rows, signal.before.descend rootItem rows = some signal.parent
  /-- Only leaves are removed. -/
  leaf : signal.change = .removingItem → ∃ c y,
    signal.before.childAt? signal.parent signal.index = some c ∧ signal.before.find? c = some y ∧
      y.children = []
  mirrored : ∃ m', mirror m signal = some m' ∧ signal.after.HasShape rootItem m'
  before : Agrees signal.before
  after : Agrees signal.after

/-- A view has followed the signals from a bare root to the mirror `m`, and all were true. -/
structure Followed (signals : List Signal) (m : Shape) : Prop where
  run : run mirror .leaf signals = some m
  truthful : ∀ (k : Nat) signal, signals[k]? = some signal → ∃ m,
    Lib.run mirror .leaf (signals.take k) = some m ∧ signal.Truthful m

private theorem followed_nil : Followed [] .leaf := by
  refine ⟨rfl, fun k signal hk => ?_⟩
  rw [List.getElem?_nil] at hk
  cases hk

private theorem Followed.concat {signals : List Signal} {signal : Signal} {m m' : Shape}
    (h : Followed signals m) (hsignal : signal.Truthful m) (hm' : mirror m signal = some m') :
    Followed (signals ++ [signal]) m' := by
  refine ⟨?_, fun k signal' hk => ?_⟩
  · rw [run_append, h.run, Option.bind_some, run_cons_eq_some]
    exact ⟨m', hm', rfl⟩
  · by_cases hlt : k < signals.length
    · rw [List.getElem?_append_left hlt] at hk
      rw [List.take_append_of_le_length (Nat.le_of_lt hlt)]
      exact h.truthful k signal' hk
    · rw [List.getElem?_append_right (Nat.le_of_not_lt hlt), List.getElem?_singleton] at hk
      split at hk
      · next hzero =>
          cases hk
          have hlength : k = signals.length := by omega
          rw [hlength, List.take_left]
          exact ⟨m, h.run, hsignal⟩
      · cases hk

end Signal

/-- Every view has the shape of the tree, and had it after every signal. -/
theorem History.mirrored {signals : List Signal} {t : Items} (h : History signals t) :
    ∃ m, Signal.Followed signals m ∧ t.HasShape rootItem m := by
  induction h with
  | init => exact ⟨.leaf, Signal.followed_nil, .leaf (x := Item.root) rfl rfl⟩
  | modifyData f _ hx ih =>
    obtain ⟨m, hm, hshape⟩ := ih
    exact ⟨m, hm, hshape.modifyData hx f⟩
  | @newItem signals t addr p a x n c _ hspans ha hx hn hc ih =>
    obtain ⟨m, hm, hshape⟩ := ih
    obtain ⟨j, rows, hj, hrows, hdescend⟩ := TweakTreeModel.rows_itemIndex hspans ha
    obtain ⟨m', hm', hshape'⟩ := hshape.attach (n := n) hspans ha hx hc ∅ hdescend
    have hmirror : Signal.mirror m ⟨.newItem, a, x.children.length, t, t.attach a c n ∅⟩ =
        some m' := by
      simp [Signal.mirror, hj, hrows, hm']
    refine ⟨m', hm.concat ?_ hmirror, hshape'⟩
    exact ⟨⟨rows, hdescend⟩, by rintro ⟨⟩, ⟨m', hmirror, hshape'⟩,
      TweakTreeModel.agrees_of_spans hspans,
      TweakTreeModel.agrees_of_spans (hspans.attach ha hn hc ∅)⟩
  | @removingItem signals t addr p a n c i y _ hspans ha hc hi hy hleaf ih =>
    obtain ⟨m, hm, hshape⟩ := ih
    obtain ⟨j, rows, hj, hrows, hdescend⟩ := TweakTreeModel.rows_itemIndex hspans ha
    obtain ⟨m', hm', hshape'⟩ := hshape.detach hspans ha hc hi hy hleaf hdescend
    have hmirror : Signal.mirror m ⟨.removingItem, a, i, t, t.detach a i c⟩ = some m' := by
      simp [Signal.mirror, hj, hrows, hm']
    refine ⟨m', hm.concat ?_ hmirror, hshape'⟩
    exact ⟨⟨rows, hdescend⟩, fun _ => ⟨c, y, hi, hy, hleaf⟩, ⟨m', hmirror, hshape'⟩,
      TweakTreeModel.agrees_of_spans hspans,
      TweakTreeModel.agrees_of_spans (hspans.detach ha hc hi hy hleaf)⟩

open TweakUriTree in
/-- For every legal history: the functions of the model agree in the end and at the time of every
signal; a mirror that follows the signals has the shape of the tree after each of them; announced
parents are items of the tree, and only leaves are announced for removal. -/
theorem views_told_truth (ops : List Operation)
    (hlegal : Along (fun live op => some (Live.apply live op)) Live.Legal Live.empty ops) :
    ∃ s, run step init ops = some s ∧ TweakTreeModel.Agrees s.items ∧
      ∃ m, Signal.Followed s.signals m ∧ s.items.HasShape rootItem m := by
  obtain ⟨s, hrun, ⟨addr, hshows⟩, -⟩ := run_total_simulation follows_step follows_init hlegal
  exact ⟨s, hrun, TweakTreeModel.agrees_of_spans hshows.spans, hshows.history.mirrored⟩

open TweakUriTree in
theorem views_told_truth_removal :
    let ops : List Operation :=
      [.addTweak .next ⟨true, "/a/b/c".toList⟩ ⟨0, 1⟩, .addTweak .next ⟨true, "/a/c".toList⟩ ⟨0, 2⟩,
        .removeTweak ⟨0, 1⟩, .removeAllTweaks fun _ => 0]
    ∃ s, run step init ops = some s ∧ TweakTreeModel.Agrees s.items ∧
      ∃ m, Signal.Followed s.signals m ∧ s.items.HasShape rootItem m :=
  views_told_truth _ (by decide +kernel)

end TweakTool.Gui

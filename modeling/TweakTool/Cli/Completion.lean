import Mathlib.Data.List.Sort
import TweakTool.Cli.Script
import TweakTool.Common.String
import TweakTool.Lib.Search

/-! # Completion of uris

`tweakuriutil.c`: a sorted array of the uris that contain a text, and the search in it for the uris
that begin with a text.

The array has a place for each pointer, and what is in new memory is arbitrary (`junk`). The process
ends (`none`) where a null pointer is followed and at a write outside the memory that was reserved.
Allocations succeed, and texts hold no NUL. -/

namespace TweakTool.Cli

open TweakTool.Lib TweakTool.App
open TweakTool.Common (sizeModulus)

/-! ## Strings -/

/-- The sign of `strcmp`, which compares bytes as `unsigned char`; the end of a string is below all of
them. -/
def strcmp : Text → Text → Ordering
  | [], [] => .eq
  | [], _ :: _ => .lt
  | _ :: _, [] => .gt
  | a :: s, b :: t => if a < b then .lt else if b < a then .gt else strcmp s t

/-- Whether `strstr` finds the needle. -/
def strstr (haystack needle : Text) : Bool := haystack.tails.any needle.isPrefixOf

def startswith (pre str : Text) : Bool :=
  if str.length < pre.length then false else str.take pre.length = pre

/-! ## The list -/

def pointerSize : Nat := 8

/-- `struct enumerate_context`. -/
structure EnumerateContext where
  substring : Option Text
  uris : List (Option Text)
  size : Nat
  reserved : Nat

structure TweakUrisList where
  uris : List (Option Text)
  size : Nat

/-- `tweak_app_traverse_items`, with a callback that always goes on. -/
def tweakAppTraverseItems {σ : Type} (c : Client) (callback : σ → Item → Option σ) (cookie : σ) :
    Option σ :=
  c.modelImpl.index.entries.foldlM (fun cookie entry =>
    (c.modelImpl.model.find? entry.2).bind (callback cookie)) cookie

section Code

variable (junk : Nat → Option Text)

def reallocUris (uris : List (Option Text)) (count : Nat) : List (Option Text) :=
  uris.take count ++ ((List.range count).map junk).drop uris.length

def ensureCapacity (context : EnumerateContext) (size : Nat) : EnumerateContext :=
  if size ≥ context.reserved then
    let newReserved := if size > 10 then size * 3 % sizeModulus / 2 else 10
    { context with
      uris := reallocUris junk context.uris (newReserved * pointerSize % sizeModulus / pointerSize)
      reserved := newReserved }
  else context

/-- `enumerate_context->uris[index] = uri`. -/
def EnumerateContext.write (context : EnumerateContext) (index : Nat) (uri : Option Text) :
    Option EnumerateContext :=
  if index < context.reserved ∧ index < context.uris.length then
    some { context with uris := context.uris.set index uri }
  else none

def isMatch (substring : Option Text) (uri : Text) : Bool :=
  match substring with
  | some substring => strstr uri substring
  | none => true

def enumerateTraverseStrstr (context : EnumerateContext) (snapshot : Item) : Option EnumerateContext :=
  if isMatch context.substring snapshot.uri then do
    let context := ensureCapacity junk context (context.size + 1)
    let context ← context.write context.size (some snapshot.uri)
    return { context with size := context.size + 1 }
  else some context

/-- `qsort` with `pstr_comparator`. -/
def qsortUris (uris : List (Option Text)) (size : Nat) : Option (List (Option Text)) := do
  let strings ← (uris.take size).mapM id
  return (strings.insertionSort fun a b => strcmp a b ≠ .gt).map some ++ uris.drop size

def createSortedTweakUrisListStrstr (c : Client) (filter : Option Text) : Option TweakUrisList := do
  let context ← tweakAppTraverseItems c (enumerateTraverseStrstr junk) ⟨filter, [], 0, 0⟩
  let context := ensureCapacity junk context (context.size + 1)
  let context ← context.write context.size none
  let uris ← qsortUris context.uris context.size
  return ⟨uris, context.size⟩

end Code

def tweakUrisListPickNthMatch (urisList : TweakUrisList) (uriPrefix : Text) (nMatch : Nat) :
    Option (Option Text) := do
  let pos ← lowerBound (fun mid => do
    let uri ← (urisList.uris[mid]?).join
    return strcmp uriPrefix uri ≠ .gt) 0 urisList.size
  let pos := (pos + nMatch) % sizeModulus
  if pos ≥ urisList.size then return none
  let uri ← (urisList.uris[pos]?).join
  return if startswith uriPrefix uri then some uri else none

/-! ## Order -/

variable {s t : Text}

theorem strcmp_eq_lt_iff : strcmp s t = .lt ↔ s < t := by
  fun_induction strcmp s t with
  | case1 => simp
  | case2 => simp
  | case3 => simp
  | case4 a s b t hlt => simp [List.cons_lt_cons_iff, hlt]
  | case5 a s b t hlt hgt =>
    have hne : a ≠ b := fun h => hlt (h ▸ hgt)
    simp [List.cons_lt_cons_iff, hlt, hne]
  | case6 a s b t hlt hgt ih =>
    have heq : a = b := UInt8.le_antisymm (UInt8.not_lt.mp hgt) (UInt8.not_lt.mp hlt)
    simp [heq, ih]

theorem strcmp_swap (s t : Text) : strcmp t s = (strcmp s t).swap := by
  fun_induction strcmp s t with
  | case1 => rfl
  | case2 => rfl
  | case3 => rfl
  | case4 a s b t hlt => simp [strcmp, hlt, UInt8.lt_asymm hlt]
  | case5 a s b t hlt hgt => simp [strcmp, hgt]
  | case6 a s b t hlt hgt ih => simp [strcmp, hlt, hgt, ih]

/-- The comparator of `qsort` is the lexicographic order. -/
theorem strcmp_ne_gt_iff : strcmp s t ≠ .gt ↔ s ≤ t := by
  rw [← List.not_lt, ← strcmp_eq_lt_iff, strcmp_swap s t]
  cases strcmp s t <;> decide

/-- A needle is a part of the text. -/
theorem strstr_iff {haystack needle : Text} : strstr haystack needle = true ↔ needle <:+: haystack := by
  rw [strstr, List.any_eq_true, List.infix_iff_prefix_suffix]
  simp only [List.mem_tails, List.isPrefixOf_iff_prefix]
  exact exists_congr fun t => and_comm

theorem startswith_eq (pre str : Text) : startswith pre str = pre.isPrefixOf str := by
  rw [Bool.eq_iff_iff, List.isPrefixOf_iff_prefix, List.prefix_iff_eq_take, startswith]
  split
  · next hlt =>
    refine iff_of_false (by simp) ?_
    intro h
    have := congrArg List.length h
    rw [List.length_take] at this
    omega
  · rw [decide_eq_true_iff, eq_comm]

/-! ## Growing -/

section Growing

variable (junk : Nat → Option Text) {context : EnumerateContext} {uris : List Text}

/-- The texts are the first of the array, and the array is as long as it says. -/
structure Filled (context : EnumerateContext) (uris : List Text) : Prop where
  size : context.size = uris.length
  capacity : context.uris.length = context.reserved
  cells : context.uris.take context.size = uris.map some

private theorem Filled.size_le (h : Filled context uris) : context.size ≤ context.reserved := by
  have hlength := congrArg List.length h.cells
  rw [List.length_take, List.length_map, ← h.size, h.capacity] at hlength
  omega

private theorem length_reallocUris (cells : List (Option Text)) (count : Nat) :
    (reallocUris junk cells count).length = count := by
  simp only [reallocUris, List.length_append, List.length_take, List.length_drop, List.length_map,
    List.length_range]
  omega

/-- The old elements stay where they are. -/
theorem take_reallocUris {cells : List (Option Text)} {count size : Nat} (hcount : size ≤ count)
    (hsize : size ≤ cells.length) : (reallocUris junk cells count).take size = cells.take size := by
  rw [reallocUris, List.take_append_of_le_length, List.take_take, Nat.min_eq_left hcount]
  rw [List.length_take]
  omega

/-- There is then a place for one more. -/
theorem Filled.ensureCapacity (h : Filled context uris) (hcount : uris.length < 2 ^ 60) :
    Filled (ensureCapacity junk context (context.size + 1)) uris ∧
      (ensureCapacity junk context (context.size + 1)).size <
        (ensureCapacity junk context (context.size + 1)).reserved := by
  have hsize := h.size
  have hle := h.size_le
  by_cases hgrow : context.size + 1 ≥ context.reserved
  · rw [Cli.ensureCapacity, if_pos hgrow]
    -- the computed number of places is that of the integers
    generalize hreserved :
      (if context.size + 1 > 10 then (context.size + 1) * 3 % sizeModulus / 2 else 10) = newReserved
    have hbounds : context.size < newReserved ∧ newReserved < 2 ^ 61 := by
      rw [← hreserved, Nat.mod_eq_of_lt (by rw [sizeModulus]; omega)]
      split <;> omega
    have hcells : newReserved * pointerSize % sizeModulus / pointerSize = newReserved := by
      rw [sizeModulus, pointerSize]
      omega
    simp only [hcells]
    refine ⟨⟨hsize, length_reallocUris _ _ _, ?_⟩, hbounds.1⟩
    rw [take_reallocUris _ (Nat.le_of_lt hbounds.1) (h.capacity ▸ hle)]
    exact h.cells
  · rw [Cli.ensureCapacity, if_neg hgrow]
    exact ⟨h, by omega⟩

theorem substring_ensureCapacity (context : EnumerateContext) (size : Nat) :
    (ensureCapacity junk context size).substring = context.substring := by
  rw [ensureCapacity]
  split <;> rfl

/-- The place after the texts is written. -/
theorem Filled.write (h : Filled context uris) (hplace : context.size < context.reserved)
    (uri : Option Text) :
    context.write context.size uri = some { context with uris := context.uris.set context.size uri } ∧
      (context.uris.set context.size uri).take (context.size + 1) = uris.map some ++ [uri] := by
  have hlength : context.size < context.uris.length := h.capacity ▸ hplace
  refine ⟨if_pos ⟨hplace, hlength⟩, ?_⟩
  rw [List.take_add_one, List.take_set_of_le (Nat.le_refl _), h.cells,
    List.getElem?_set_self hlength]
  rfl

/-- One item. -/
theorem Filled.enumerate (h : Filled context uris) (hcount : uris.length < 2 ^ 60) (item : Item) :
    ∃ context', enumerateTraverseStrstr junk context item = some context' ∧
      context'.substring = context.substring ∧
      Filled context' (uris ++ [item.uri].filter (isMatch context.substring)) := by
  by_cases hmatch : isMatch context.substring item.uri = true
  · obtain ⟨hfilled, hplace⟩ := h.ensureCapacity junk hcount
    have hsame := substring_ensureCapacity junk context (context.size + 1)
    have hrun := enumerateTraverseStrstr.eq_1 junk context item
    rw [if_pos hmatch] at hrun
    generalize Cli.ensureCapacity junk context (context.size + 1) = grown at hfilled hplace hsame hrun
    obtain ⟨hwrite, hcells⟩ := hfilled.write hplace (some item.uri)
    simp only [hwrite] at hrun
    refine ⟨_, hrun, hsame, ?_⟩
    rw [List.filter_cons_of_pos hmatch, List.filter_nil]
    refine ⟨?_, List.length_set.trans hfilled.capacity, ?_⟩
    · rw [List.length_append, ← hfilled.size]
      rfl
    · rw [List.map_append]
      exact hcells
  · refine ⟨context, if_neg hmatch, rfl, ?_⟩
    rw [List.filter_cons_of_neg hmatch, List.filter_nil, List.append_nil]
    exact h

/-- All entries of an index, each with its item. -/
theorem Filled.traverse {c : Client} {entries : List (Text × TweakId)}
    (hentries : ∀ entry ∈ entries, ∃ item, c.modelImpl.model.find? entry.2 = some item ∧
      item.uri = entry.1)
    (h : Filled context uris) (hcount : uris.length + entries.length < 2 ^ 60) :
    ∃ context', entries.foldlM (fun cookie entry =>
        (c.modelImpl.model.find? entry.2).bind (enumerateTraverseStrstr junk cookie)) context =
          some context' ∧
      Filled context' (uris ++ (entries.map Prod.fst).filter (isMatch context.substring)) := by
  induction entries generalizing context uris with
  | nil =>
    refine ⟨context, rfl, ?_⟩
    rw [List.map_nil, List.filter_nil, List.append_nil]
    exact h
  | cons entry entries ih =>
    obtain ⟨⟨item, hitem, huri⟩, hentries⟩ := List.forall_mem_cons.mp hentries
    rw [List.length_cons] at hcount
    obtain ⟨context', hstep, hsubstring, hfilled⟩ := h.enumerate junk (by omega) item
    have hcount' : (uris ++ [item.uri].filter (isMatch context.substring)).length + entries.length <
        2 ^ 60 := by
      have := List.length_filter_le (isMatch context.substring) [item.uri]
      rw [List.length_singleton] at this
      rw [List.length_append]
      omega
    obtain ⟨last, hrest, hlast⟩ := ih hentries hfilled hcount'
    refine ⟨last, ?_, ?_⟩
    · rw [List.foldlM_cons, hitem, Option.bind_some, hstep]
      exact hrest
    · rw [hsubstring, huri, List.append_assoc, ← List.filter_append] at hlast
      exact hlast

end Growing

/-! ## Sorting -/

private theorem mapM_id_map_some (l : List Text) : (l.map some).mapM id = some l := by
  induction l with
  | nil => rfl
  | cons s l ih => rw [List.map_cons, List.mapM_cons, ih]; rfl

/-- What `qsort` leaves is sorted. -/
theorem pairwise_insertionSort_strcmp (l : List Text) :
    (l.insertionSort fun s t => strcmp s t ≠ .gt).Pairwise (· ≤ ·) := by
  have : Std.Total fun s t => strcmp s t ≠ .gt :=
    ⟨fun s t => by simpa only [strcmp_ne_gt_iff] using List.le_total s t⟩
  have : IsTrans Text fun s t => strcmp s t ≠ .gt :=
    ⟨fun s t u => by simpa only [strcmp_ne_gt_iff] using List.le_trans⟩
  exact (List.pairwise_insertionSort _ l).imp strcmp_ne_gt_iff.mp

variable {uris : List Text}

/-- The texts are sorted, and what follows them stays. -/
theorem qsortUris_eq {cells : List (Option Text)} {last : Option Text}
    (h : cells.take (uris.length + 1) = uris.map some ++ [last]) :
    ∃ cells', qsortUris cells uris.length = some cells' ∧ cells'.take (uris.length + 1) =
      (uris.insertionSort fun s t => strcmp s t ≠ .gt).map some ++ [last] := by
  have htexts : cells.take uris.length = uris.map some := by
    have := congrArg (List.take uris.length) h
    rwa [List.take_take, Nat.min_eq_left (Nat.le_succ _), List.take_left' (List.length_map _)] at this
  have hlast : (cells.drop uris.length).take 1 = [last] := by
    have := congrArg (List.drop uris.length) h
    rwa [List.drop_take, List.drop_left' (List.length_map _), Nat.add_sub_cancel_left] at this
  refine ⟨(uris.insertionSort fun s t => strcmp s t ≠ .gt).map some ++ cells.drop uris.length, ?_, ?_⟩
  · rw [qsortUris, htexts, mapM_id_map_some]
    rfl
  · rw [List.take_append, List.length_map, List.length_insertionSort, Nat.add_sub_cancel_left, hlast,
      List.take_of_length_le]
    rw [List.length_map, List.length_insertionSort]
    exact Nat.le_succ _

/-- The list of the uris: all that match the filter, in order, and a null pointer. -/
structure Enumerates (c : Client) (filter : Option Text) (urisList : TweakUrisList)
    (uris : List Text) : Prop where
  size : urisList.size = uris.length
  cells : urisList.uris.take (urisList.size + 1) = uris.map some ++ [none]
  increasing : uris.Pairwise (strcmp · · = .lt)
  mem : ∀ uri, uri ∈ uris ↔
    (∃ id item, c.find? id = some item ∧ item.uri = uri) ∧ ∀ text ∈ filter, text <:+: uri

variable {filter : Option Text} {uri : Text}

private theorem isMatch_iff : isMatch filter uri = true ↔ ∀ text ∈ filter, text <:+: uri := by
  cases filter with
  | none => simp [isMatch]
  | some text => simp [isMatch, strstr_iff]

variable {c : Client}

private theorem mem_index_iff (hc : c.modelImpl.Bijective) :
    uri ∈ c.modelImpl.index.entries.map Prod.fst ↔ ∃ id item, c.find? id = some item ∧ item.uri = uri := by
  rw [List.mem_map]
  constructor
  · rintro ⟨⟨uri, id⟩, hmem, rfl⟩
    exact ⟨id, (hc.indexed uri id).mp (Table.mem_entries_iff.mp hmem)⟩
  · rintro ⟨id, hitem⟩
    exact ⟨(uri, id), Table.mem_entries_iff.mpr ((hc.indexed uri id).mpr hitem), rfl⟩

/-- A sorted list without repetition is strictly increasing. -/
theorem pairwise_lt_of_nodup {l : List Text} (hsorted : l.Pairwise (· ≤ ·)) (hnodup : l.Nodup) :
    l.Pairwise (· < ·) := by
  refine (hsorted.and hnodup).imp ?_
  rintro s t ⟨hle, hne⟩
  exact (List.le_iff_lt_or_eq.mp hle).resolve_right hne

private theorem createSortedTweakUrisListStrstr_enumerates (junk : Nat → Option Text)
    (hc : c.modelImpl.Bijective) (hcount : c.modelImpl.index.entries.length < 2 ^ 60)
    (filter : Option Text) :
    ∃ urisList uris, createSortedTweakUrisListStrstr junk c filter = some urisList ∧
      Enumerates c filter urisList uris ∧ uris.length < 2 ^ 60 := by
  have hentries : ∀ entry ∈ c.modelImpl.index.entries,
      ∃ item, c.modelImpl.model.find? entry.2 = some item ∧ item.uri = entry.1 :=
    fun entry hentry => (hc.indexed _ _).mp (Table.mem_entries_iff.mp hentry)
  have hnone : Filled ⟨filter, [], 0, 0⟩ [] := ⟨rfl, rfl, rfl⟩
  obtain ⟨context, hrun, hfilled⟩ := hnone.traverse junk hentries (by simpa using hcount)
  rw [List.nil_append] at hfilled
  have hnodup := c.modelImpl.index.nodup.filter (isMatch filter)
  have hlength := Nat.lt_of_le_of_lt (List.length_filter_le (isMatch filter) _)
    (List.length_map Prod.fst ▸ hcount)
  have hmem : ∀ uri, uri ∈ (c.modelImpl.index.entries.map Prod.fst).filter (isMatch filter) ↔
      (∃ id item, c.find? id = some item ∧ item.uri = uri) ∧ ∀ text ∈ filter, text <:+: uri := by
    intro uri
    rw [List.mem_filter, mem_index_iff hc, isMatch_iff]
  generalize (c.modelImpl.index.entries.map Prod.fst).filter (isMatch filter) = uris
    at hfilled hnodup hlength hmem
  -- room for the null pointer at the end
  obtain ⟨hgrown, hplace⟩ := hfilled.ensureCapacity junk hlength
  obtain ⟨hwrite, hcells⟩ := hgrown.write hplace none
  rw [hgrown.size] at hcells
  obtain ⟨cells, hsort, hsorted⟩ := qsortUris_eq hcells
  have hcreate : createSortedTweakUrisListStrstr junk c filter = some ⟨cells, uris.length⟩ := by
    rw [createSortedTweakUrisListStrstr, tweakAppTraverseItems, hrun]
    show Option.bind (EnumerateContext.write _ _ none) _ = _
    rw [hwrite, Option.bind_some]
    show Option.bind (qsortUris _ _) _ = _
    rw [hgrown.size, hsort]
    rfl
  have hperm := List.perm_insertionSort (fun s t => strcmp s t ≠ .gt) uris
  have hincreasing := pairwise_lt_of_nodup (pairwise_insertionSort_strcmp uris)
    (hperm.nodup_iff.mpr hnodup)
  refine ⟨_, _, hcreate, ⟨hperm.length_eq.symm, hsorted, hincreasing.imp strcmp_eq_lt_iff.mpr, ?_⟩, ?_⟩
  · intro uri
    rw [hperm.mem_iff, hmem]
  · rwa [hperm.length_eq]

variable {urisList : TweakUrisList}

/-- Without a filter the list is the one that `save` goes through. -/
theorem Enumerates.eq_createSortedTweakUrisList (h : Enumerates c none urisList uris)
    (hc : c.modelImpl.Bijective) : uris = createSortedTweakUrisList c := by
  have hperm : (createSortedTweakUrisList c).Perm (c.modelImpl.model.entries.map (·.2.uri)) :=
    List.perm_insertionSort _ _
  have hmem : ∀ uri, uri ∈ uris ↔ uri ∈ createSortedTweakUrisList c := by
    intro uri
    rw [h.mem, hperm.mem_iff, List.mem_map]
    constructor
    · rintro ⟨⟨id, item, hitem, huri⟩, -⟩
      exact ⟨(id, item), Table.mem_entries_iff.mpr hitem, huri⟩
    · rintro ⟨⟨id, item⟩, hentry, huri⟩
      exact ⟨⟨id, item, Table.mem_entries_iff.mp hentry, huri⟩, by rintro _ ⟨⟩⟩
  have hnodup : (createSortedTweakUrisList c).Nodup := by
    rw [hperm.nodup_iff, List.nodup_map_iff_inj_on (List.Nodup.of_map _ c.modelImpl.model.nodup)]
    rintro ⟨id, item⟩ hentry ⟨id', item'⟩ hentry' huri
    have hitem : c.find? id = some item := Table.mem_entries_iff.mp hentry
    have hitem' : c.find? id' = some item' := Table.mem_entries_iff.mp hentry'
    obtain rfl := hc.unique hitem hitem' huri
    rw [Option.some.inj (hitem.symm.trans hitem')]
  -- both are sorted, and no two lists are sorted with the same elements
  have hsorted := pairwise_insertionSort_strcmp (c.modelImpl.model.entries.map (·.2.uri))
  simp only [strcmp_ne_gt_iff] at hsorted
  exact List.Pairwise.eq_of_mem_iff (h.increasing.imp strcmp_eq_lt_iff.mp)
    (pairwise_lt_of_nodup hsorted hnodup) hmem

/-! ## Picking -/

/-- The uris with a common beginning stand together, and the search finds the first of them. -/
theorem tweakUrisListPickNthMatch_eq (h : Enumerates c filter urisList uris)
    (hlength : uris.length < 2 ^ 60) (uriPrefix : Text) {nMatch : Nat} (hn : nMatch < 2 ^ 31) :
    tweakUrisListPickNthMatch urisList uriPrefix nMatch =
      some (uris.filter uriPrefix.isPrefixOf)[nMatch]? := by
  have hsorted : uris.Pairwise (· ≤ ·) :=
    h.increasing.imp fun hlt => List.le_of_lt (strcmp_eq_lt_iff.mp hlt)
  have hcell : ∀ i (hi : i < uris.length), urisList.uris[i]?.join = some uris[i] := by
    intro i hi
    have := congrArg (·[i]?) h.cells
    rw [List.getElem?_take_of_lt (by rw [h.size]; omega), List.getElem?_append_left (by simpa)] at this
    rw [this, List.getElem?_map, List.getElem?_eq_getElem hi]
    rfl
  have hsearch : lowerBound (fun mid => do
      let uri ← (urisList.uris[mid]?).join
      return strcmp uriPrefix uri ≠ .gt) 0 uris.length = some (uris.findIdx (uriPrefix ≤ ·)) := by
    apply lowerBound_findIdx (pairwise_le_imp_le hsorted uriPrefix)
    intro i hi
    rw [hcell i hi]
    exact congrArg some (decide_eq_decide.mpr strcmp_ne_gt_iff)
  have hfound : uris.findIdx (uriPrefix ≤ ·) ≤ uris.length := List.findIdx_le_length
  rw [getElem?_filter_isPrefixOf hsorted, tweakUrisListPickNthMatch, h.size, hsearch]
  generalize uris.findIdx (uriPrefix ≤ ·) = place at hfound
  show (if (place + nMatch) % sizeModulus ≥ uris.length then _ else _) = _
  rw [Nat.mod_eq_of_lt (by rw [sizeModulus]; omega)]
  by_cases hpos : place + nMatch ≥ uris.length
  · rw [if_pos hpos, List.getElem?_eq_none hpos]
    rfl
  · rw [if_neg hpos, hcell _ (Nat.lt_of_not_le hpos), List.getElem?_eq_getElem (Nat.lt_of_not_le hpos)]
    show some (if startswith _ _ then _ else _) = _
    rw [startswith_eq]
    rfl

/-- Completion offers the uris that begin with a text, one after the other. -/
theorem uriCompletion (junk : Nat → Option Text) {c : Client} (hc : c.modelImpl.Bijective)
    (hcount : c.modelImpl.index.entries.length < 2 ^ 60) (filter : Option Text) :
    ∃ urisList uris, createSortedTweakUrisListStrstr junk c filter = some urisList ∧
      Enumerates c filter urisList uris ∧
      ∀ uriPrefix nMatch, nMatch < 2 ^ 31 → tweakUrisListPickNthMatch urisList uriPrefix nMatch =
        some (uris.filter uriPrefix.isPrefixOf)[nMatch]? := by
  obtain ⟨urisList, uris, hcreate, henumerates, hlength⟩ :=
    createSortedTweakUrisListStrstr_enumerates junk hc hcount filter
  exact ⟨urisList, uris, hcreate, henumerates, fun uriPrefix nMatch hn =>
    tweakUrisListPickNthMatch_eq henumerates hlength uriPrefix hn⟩

def newItem (id : TweakId) (uri : String) : AddItem :=
  ⟨id, text uri, [], [], .string [], .string []⟩

/-- A client whose items came in another order than that of their uris. -/
def unordered : Client where
  modelImpl := ⟨((Table.empty.insert 1 (.create (newItem 1 "/b"))).insert 2
      (.create (newItem 2 "/ab"))).insert 3 (.create (newItem 3 "/a")),
    ((Table.empty.insert (text "/b") 1).insert (text "/ab") 2).insert (text "/a") 3⟩
  connected := true
  remotePeerFeatures := ⟨false⟩
  queue := []

private theorem bijective_unordered : unordered.modelImpl.Bijective := by
  have hb := ModelImpl.Bijective.empty.add
    (show ModelImpl.Addable ⟨true, true, true, true⟩ _ (newItem 1 "/b") by decide) (by decide)
  have hab := hb.add
    (show ModelImpl.Addable ⟨true, true, true, true⟩ _ (newItem 2 "/ab") by decide) (by decide)
  exact hab.add
    (show ModelImpl.Addable ⟨true, true, true, true⟩ _ (newItem 3 "/a") by decide) (by decide)

theorem uriCompletion_unordered : ∃ urisList uris,
    createSortedTweakUrisListStrstr (fun _ => none) unordered (some (text "a")) = some urisList ∧
      Enumerates unordered (some (text "a")) urisList uris ∧
      ∀ uriPrefix nMatch, nMatch < 2 ^ 31 → tweakUrisListPickNthMatch urisList uriPrefix nMatch =
        some (uris.filter uriPrefix.isPrefixOf)[nMatch]? :=
  uriCompletion (fun _ => none) bijective_unordered (by decide) (some (text "a"))

end TweakTool.Cli

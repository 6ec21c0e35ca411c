import Mathlib.Data.List.Nodup

/-! # Tables

Finite maps that remember the order in which their keys were inserted: a hash table with a linked
list through its entries. The list is the representation, and no key occurs in it twice. -/

namespace TweakTool.Lib

variable {K V : Type} [DecidableEq K]

structure Table (K V : Type) where
  entries : List (K × V)
  nodup : (entries.map Prod.fst).Nodup
  deriving DecidableEq

namespace Table

def find? (t : Table K V) (k : K) : Option V := t.entries.lookup k

def empty : Table K V := ⟨[], List.nodup_nil⟩

variable {t : Table K V} {k : K}

theorem mem_entries_iff {v : V} : (k, v) ∈ t.entries ↔ t.find? k = some v := by
  obtain ⟨entries, nodup⟩ := t
  show (k, v) ∈ entries ↔ entries.lookup k = some v
  induction entries with
  | nil => simp
  | cons entry entries ih =>
    obtain ⟨k', v'⟩ := entry
    rw [List.map_cons, List.nodup_cons] at nodup
    rw [List.mem_cons, List.lookup_cons, ih nodup.2, Prod.mk.injEq]
    by_cases hk : k = k'
    · -- the rest of the list has no entry for the key
      have hrest : entries.lookup k ≠ some v := by
        intro h
        have hmem := List.mem_map_of_mem (f := Prod.fst) ((ih nodup.2).mpr h)
        rw [hk] at hmem
        exact nodup.1 hmem
      simp [hk ▸ hrest, hk, eq_comm]
    · simp [hk, beq_eq_false_iff_ne.mpr hk]

theorem find?_eq_none_iff : t.find? k = none ↔ k ∉ t.entries.map Prod.fst := by
  rw [Option.eq_none_iff_forall_ne_some, List.mem_map]
  constructor
  · rintro h ⟨⟨k', v⟩, hmem, rfl⟩
    exact h v (mem_entries_iff.mp hmem)
  · intro h v hv
    exact h ⟨(k, v), mem_entries_iff.mpr hv, rfl⟩

@[simp] theorem find?_empty (k : K) : (empty : Table K V).find? k = none := rfl

/-! ## Insertion -/

def insert (t : Table K V) (k : K) (v : V) : Table K V :=
  if h : t.find? k = none then
    ⟨t.entries ++ [(k, v)], by
      rw [List.map_append, List.nodup_append]
      refine ⟨t.nodup, List.nodup_singleton k, ?_⟩
      rintro a ha b hb rfl
      rw [List.map_singleton, List.mem_singleton] at hb
      rw [hb] at ha
      exact find?_eq_none_iff.mp h ha⟩
  else t

theorem entries_insert (h : t.find? k = none) (v : V) :
    (t.insert k v).entries = t.entries ++ [(k, v)] := by
  rw [insert, dif_pos h]

theorem find?_insert (h : t.find? k = none) (v : V) (k' : K) :
    (t.insert k v).find? k' = if k' = k then some v else t.find? k' := by
  rw [find?, entries_insert h, List.lookup_append, ← find?]
  by_cases hk : k' = k
  · rw [if_pos hk, hk, h]
    simp
  · rw [if_neg hk]
    simp [List.lookup_cons, beq_eq_false_iff_ne.mpr hk]

/-! ## Removal -/

def erase (t : Table K V) (k : K) : Table K V :=
  ⟨t.entries.filter (fun entry => entry.1 ≠ k), by
    exact t.nodup.sublist (List.filter_sublist.map Prod.fst)⟩

@[simp] theorem find?_erase (t : Table K V) (k k' : K) :
    (t.erase k).find? k' = if k' = k then none else t.find? k' := by
  apply Option.ext
  intro v
  rw [← mem_entries_iff, erase, List.mem_filter, mem_entries_iff]
  by_cases hk : k' = k <;> simp [hk]

theorem length_erase_lt {v : V} (h : t.find? k = some v) :
    (t.erase k).entries.length < t.entries.length := by
  refine List.length_filter_lt_length_iff_exists.mpr ⟨(k, v), mem_entries_iff.mpr h, ?_⟩
  simp

theorem erase_insert (h : t.find? k = none) (v : V) : (t.insert k v).erase k = t := by
  obtain ⟨entries, nodup⟩ := t
  have hkeys := find?_eq_none_iff.mp h
  rw [List.mem_map, not_exists] at hkeys
  have hkept : entries.filter (fun entry => entry.1 ≠ k) = entries := by
    rw [List.filter_eq_self]
    intro entry hentry
    exact decide_eq_true fun hk => hkeys entry ⟨hentry, hk⟩
  simp only [erase, entries_insert h, List.filter_append, hkept, mk.injEq]
  simp

/-! ## Update -/

def modify (t : Table K V) (k : K) (f : V → V) : Table K V :=
  ⟨t.entries.map fun entry => (entry.1, if entry.1 = k then f entry.2 else entry.2), by
    rw [List.map_map]
    exact t.nodup⟩

@[simp] theorem find?_modify (t : Table K V) (k : K) (f : V → V) (k' : K) :
    (t.modify k f).find? k' = if k' = k then (t.find? k).map f else t.find? k' := by
  apply Option.ext
  intro v
  rw [← mem_entries_iff, modify, List.mem_map]
  constructor
  · rintro ⟨⟨k'', v'⟩, hmem, heq⟩
    obtain ⟨rfl, rfl⟩ := Prod.mk.inj heq
    rw [mem_entries_iff] at hmem
    by_cases hk : k'' = k
    · rw [if_pos hk, ← hk, hmem]
      simp [hk]
    · simp [hk, hmem]
  · intro h
    by_cases hk : k' = k
    · rw [if_pos hk, Option.map_eq_some_iff] at h
      obtain ⟨v', hv', rfl⟩ := h
      exact ⟨(k, v'), mem_entries_iff.mpr hv', by simp [hk]⟩
    · rw [if_neg hk] at h
      exact ⟨(k', v), mem_entries_iff.mpr h, by simp [hk]⟩

end Table

end TweakTool.Lib

import TweakTool.Lib.Table

/-! # Heaps

Cells that threads share: each key has at most one cell, and the address of a cell is never used for
another one. A cell that is freed is not forgotten, but remembers who has freed it: addresses may still
be known to other threads. -/

namespace TweakTool.Lib

variable {K τ : Type} [DecidableEq K]

structure Heap (K τ : Type) [DecidableEq K] where
  cells : Table K Nat
  allocated : Nat
  freedBy : Nat → Option τ
  live : ∀ {k r}, cells.find? k = some r → r < allocated ∧ freedBy r = none
  injective : ∀ {k k' r}, cells.find? k = some r → cells.find? k' = some r → k = k'
  fresh : ∀ {r}, allocated ≤ r → freedBy r = none

namespace Heap

def empty : Heap K τ where
  cells := .empty
  allocated := 0
  freedBy _ := none
  live h := by cases h
  injective h := by cases h
  fresh _ := rfl

def addresses (h : Heap K τ) : List Nat := h.cells.entries.map Prod.snd

variable {h : Heap K τ} {r : Nat}

theorem mem_addresses : r ∈ h.addresses ↔ ∃ k, h.cells.find? k = some r := by
  rw [addresses, List.mem_map]
  constructor
  · rintro ⟨⟨k, r'⟩, hmem, rfl⟩
    exact ⟨k, Table.mem_entries_iff.mp hmem⟩
  · rintro ⟨k, hk⟩
    exact ⟨(k, r), Table.mem_entries_iff.mpr hk, rfl⟩

/-! ## Operations -/

def alloc (h : Heap K τ) (k : K) : Heap K τ :=
  if hk : h.cells.find? k = none then
    { cells := h.cells.insert k h.allocated
      allocated := h.allocated + 1
      freedBy := h.freedBy
      live := by
        intro k' r hr
        rw [Table.find?_insert hk] at hr
        split at hr
        · cases hr
          exact ⟨Nat.lt_succ_self _, h.fresh (Nat.le_refl _)⟩
        · exact ⟨Nat.lt_succ_of_lt (h.live hr).1, (h.live hr).2⟩
      injective := by
        intro k' k'' r hr' hr''
        rw [Table.find?_insert hk] at hr' hr''
        split at hr' <;> split at hr''
        · next h' h'' => exact h'.trans h''.symm
        · cases hr'
          exact absurd (h.live hr'').1 (Nat.lt_irrefl _)
        · cases hr''
          exact absurd (h.live hr').1 (Nat.lt_irrefl _)
        · exact h.injective hr' hr''
      fresh := fun hr => h.fresh (Nat.le_of_succ_le hr) }
  else h

def free (h : Heap K τ) (t : τ) (k : K) : Heap K τ where
  cells := h.cells.erase k
  allocated := h.allocated
  freedBy r := if h.cells.find? k = some r then some t else h.freedBy r
  live := by
    intro k' r hr
    rw [Table.find?_erase] at hr
    split at hr
    · cases hr
    · next hk =>
        refine ⟨(h.live hr).1, ?_⟩
        rw [if_neg fun hkr => hk (h.injective hr hkr)]
        exact (h.live hr).2
  injective := by
    intro k' k'' r hr' hr''
    rw [Table.find?_erase] at hr' hr''
    split at hr'
    · cases hr'
    · split at hr''
      · cases hr''
      · exact h.injective hr' hr''
  fresh := by
    intro r hr
    rw [if_neg fun hkr => absurd (h.live hkr).1 (Nat.not_lt.mpr hr)]
    exact h.fresh hr

def clear (h : Heap K τ) (t : τ) : Heap K τ where
  cells := .empty
  allocated := h.allocated
  freedBy r := if r ∈ h.addresses then some t else h.freedBy r
  live hr := by cases hr
  injective hr := by cases hr
  fresh := by
    intro r hr
    rw [if_neg]
    · exact h.fresh hr
    · intro hmem
      obtain ⟨k, hk⟩ := mem_addresses.mp hmem
      exact absurd (h.live hk).1 (Nat.not_lt.mpr hr)

/-! ## What they do to the other cells -/

variable {k : K} {t t' : τ}

theorem find?_alloc (hk : h.cells.find? k = none) (k' : K) :
    (h.alloc k).cells.find? k' = if k' = k then some h.allocated else h.cells.find? k' := by
  rw [alloc, dif_pos hk]
  exact Table.find?_insert hk _ _

theorem find?_free (k' : K) :
    (h.free t k).cells.find? k' = if k' = k then none else h.cells.find? k' :=
  Table.find?_erase _ _ _

theorem freedBy_alloc : (h.alloc k).freedBy = h.freedBy := by
  rw [alloc]
  split <;> rfl

/-- A cell that is not freed now is not the one that is freed. -/
theorem freedBy_free_of_ne (hr : h.cells.find? k ≠ some r) :
    (h.free t k).freedBy r = h.freedBy r := if_neg hr

theorem freedBy_clear_of_not_mem (hr : r ∉ h.addresses) : (h.clear t).freedBy r = h.freedBy r :=
  if_neg hr

theorem freedBy_clear_of_mem (hr : r ∈ h.addresses) : (h.clear t).freedBy r = some t := if_pos hr

/-- A cell is freed once. -/
theorem freedBy_free_of_some (hr : h.freedBy r = some t') : (h.free t k).freedBy r = some t' := by
  rw [freedBy_free_of_ne, hr]
  intro hk
  rw [(h.live hk).2] at hr
  cases hr

theorem freedBy_clear_of_some (hr : h.freedBy r = some t') : (h.clear t).freedBy r = some t' := by
  rw [freedBy_clear_of_not_mem, hr]
  intro hmem
  obtain ⟨k, hk⟩ := mem_addresses.mp hmem
  rw [(h.live hk).2] at hr
  cases hr

end Heap

end TweakTool.Lib

import Mathlib.Data.Nat.Basic
import Mathlib.Logic.Function.Basic

/-!
# Tables of outstanding requests

A table has `n` slots; the slot of a request is its tag. A request takes the first free one.
-/

namespace TagTable
open List

variable {α : Type} {n : ℕ} {table : ℕ → Option α}

def full (n : ℕ) (table : ℕ → Option α) : Bool := (range n).all fun tag => (table tag).isSome

def free (n : ℕ) (table : ℕ → Option α) : Option ℕ :=
  (range n).find? fun tag => (table tag).isNone

theorem free_spec {tag : ℕ} (h : free n table = some tag) : tag < n ∧ table tag = none := by
  have hmem := mem_of_find?_eq_some h
  have hp := find?_some h
  exact ⟨mem_range.mp hmem, Option.isNone_iff_eq_none.mp hp⟩

theorem free_isSome (h : full n table = false) : ∃ tag, free n table = some tag := by
  rw [full, all_eq_false] at h
  obtain ⟨tag, hmem, hnone⟩ := h
  refine Option.isSome_iff_exists.mp (find?_isSome.mpr ⟨tag, hmem, ?_⟩)
  simpa using hnone

theorem full_iff : full n table = true ↔ ∀ tag < n, ∃ a, table tag = some a := by
  simp [full, all_eq_true, Option.isSome_iff_exists]

end TagTable

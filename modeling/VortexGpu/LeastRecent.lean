import Mathlib.Data.Fintype.EquivFin
import Mathlib.Order.WellFounded

/-!
# Orders that follow the last service

A log holds the vectors served so far, the newest first, each with one bit set. A relation follows
the log when it is a strict total order in which whoever was served longer ago, or never, stands
above. Serving one element puts it below all others.
-/

namespace LeastRecent
open List

variable {α : Type} [DecidableEq α] {r r' : α → α → Prop} {log : List (α → Bool)}
  {i j g : α}

def only (g : α) : α → Bool := fun i => decide (i = g)

def age (log : List (α → Bool)) (i : α) : ℕ := log.findIdx fun v => v i

theorem age_cons : age (only g :: log) i = if i = g then 0 else age log i + 1 := by
  by_cases h : i = g
  · simp [age, only, findIdx_cons, h]
  · simp [age, only, findIdx_cons, h]

theorem eq_or_unserved (hsingle : ∀ v ∈ log, ∃ g, v = only g) (h : age log i = age log j) :
    i = j ∨ ∀ v ∈ log, v i = false ∧ v j = false := by
  induction log with
  | nil => exact .inr fun v hv => absurd hv not_mem_nil
  | cons v log ih =>
    obtain ⟨⟨g, rfl⟩, hrest⟩ := forall_mem_cons.mp hsingle
    rw [age_cons, age_cons] at h
    by_cases hi : i = g
    · exact .inl (hi.trans (by grind))
    · have hj : j ≠ g := by grind
      rw [if_neg hi, if_neg hj, Nat.add_right_cancel_iff] at h
      exact (ih hrest h).imp_right fun hnone =>
        forall_mem_cons.mpr ⟨⟨decide_eq_false hi, decide_eq_false hj⟩, hnone⟩

structure Follows (r : α → α → Prop) (log : List (α → Bool)) : Prop where
  order : IsStrictTotalOrder α r
  single : ∀ v ∈ log, ∃ g, v = only g
  aged : ∀ i j, age log j < age log i → r i j

namespace Follows

theorem nil (h : IsStrictTotalOrder α r) : Follows r [] :=
  ⟨h, fun _ hv => absurd hv (not_mem_nil), fun _ _ hlt => absurd hlt (lt_irrefl 0)⟩

theorem serve (h : Follows r log) (hr : ∀ i j, r' i j ↔ i ≠ g ∧ (j = g ∨ r i j)) :
    Follows r' (only g :: log) := by
  obtain ⟨horder, hsingle, haged⟩ := h
  have hirrefl : ∀ i, ¬ r' i i := by
    intro i hi
    obtain ⟨hne, hi⟩ := (hr i i).mp hi
    exact hi.elim hne (irrefl_of r i)
  have htrans : ∀ i j k, r' i j → r' j k → r' i k := by
    intro i j k hij hjk
    obtain ⟨hi, hij⟩ := (hr i j).mp hij
    obtain ⟨hj, hjk⟩ := (hr j k).mp hjk
    exact (hr i k).mpr ⟨hi, hjk.imp_right fun hjk => trans_of r (hij.resolve_left hj) hjk⟩
  have htotal : ∀ i j, ¬ r' i j → ¬ r' j i → i = j := by
    intro i j hij hji
    by_contra hne
    rw [hr] at hij hji
    rcases trichotomous_of r i j with h | h | h
    · grind
    · exact hne h
    · grind
  refine ⟨{ trichotomous := htotal, irrefl := hirrefl, trans := htrans }, ?_, ?_⟩
  · rintro v (_ | ⟨_, hv⟩)
    · exact ⟨g, rfl⟩
    · exact hsingle v hv
  · intro i j hlt
    rw [age_cons, age_cons] at hlt
    rw [hr]
    grind

/-- The last one served already stands below all others. -/
theorem last (h : Follows r (only g :: log)) (i j : α) :
    r i j ↔ i ≠ g ∧ (j = g ∨ r i j) := by
  have := h.order
  have hbelow : ∀ k ≠ g, r k g := fun k hk => h.aged k g (by simp [age_cons, hk])
  constructor
  · intro hij
    refine ⟨?_, .inr hij⟩
    rintro rfl
    by_cases hj : j = i
    · exact irrefl_of r i (hj ▸ hij)
    · exact asymm_of r hij (hbelow j hj)
  · rintro ⟨hi, rfl | hij⟩
    · exact hbelow i hi
    · exact hij

theorem first [Finite α] (h : Follows r log) {p : α → Bool} (hp : p i = true) :
    ∃ g, p g = true ∧ ∀ j ≠ g, p j = true → r g j := by
  have := h.order
  obtain ⟨g, hg, hmin⟩ :=
    (Finite.wellFounded_of_trans_of_irrefl r).has_min { k | p k = true } ⟨i, hp⟩
  refine ⟨g, hg, fun j hj hpj => ?_⟩
  rcases trichotomous_of r g j with hlt | heq | hlt
  · exact hlt
  · exact absurd heq.symm hj
  · exact absurd hlt (hmin j hpj)

theorem older (h : Follows r log) (hij : r i j) :
    age log j < age log i ∨ ∀ v ∈ log, v i = false ∧ v j = false := by
  have := h.order
  rcases lt_trichotomy (age log j) (age log i) with hlt | heq | hlt
  · exact .inl hlt
  · exact .inr ((eq_or_unserved h.single heq.symm).resolve_left fun he =>
      irrefl_of r j (he ▸ hij))
  · exact absurd (h.aged j i hlt) (asymm_of r hij)

end Follows

end LeastRecent

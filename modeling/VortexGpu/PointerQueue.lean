import Mathlib.Data.Nat.ModEq

/-!
# Queues between two pointers

A queue in an array of `d` cells with a read and a write pointer that count modulo `2 * d`. The cell
of a pointer is its value modulo `d`; the extra bit tells a full queue from an empty one. `Holds`
says which items are between the pointers.
-/

namespace PointerQueue
open List Nat

variable {α : Type} {d : ℕ} {cells : ℕ → α} {rptr wptr : ℕ} {items : List α} {a : α}

structure Holds (d : ℕ) (cells : ℕ → α) (rptr wptr : ℕ) (items : List α) : Prop where
  fits : items.length ≤ d
  counts : ∃ lo, rptr = lo % (2 * d) ∧ wptr = (lo + items.length) % (2 * d) ∧
    ∀ j, (h : j < items.length) → cells ((lo + j) % d) = items[j]

theorem holds_empty (d : ℕ) (cells : ℕ → α) : Holds d cells 0 0 [] :=
  ⟨zero_le d, 0, (zero_mod _).symm, (zero_mod _).symm, fun _ h => absurd h (not_lt_zero _)⟩

theorem dvd_of_mod_eq {lo n m : ℕ} (h : (lo + n) % m = lo % m) : m ∣ n := by
  have hmod : lo + n ≡ lo + 0 [MOD m] := by simpa [Nat.ModEq] using h
  exact (modEq_zero_iff_dvd).mp (Nat.ModEq.add_left_cancel' lo hmod)

theorem Holds.empty_iff (hd : 0 < d) (h : Holds d cells rptr wptr items) :
    wptr = rptr ↔ items = [] := by
  obtain ⟨hfits, lo, hr, hw, _⟩ := h
  constructor
  · intro heq
    rw [hr, hw] at heq
    have hdvd := dvd_of_mod_eq heq
    exact length_eq_zero_iff.mp (eq_zero_of_dvd_of_lt hdvd (by omega))
  · rintro rfl
    rw [hr, hw, length_nil, add_zero]

theorem Holds.full_iff (hd : 0 < d) (h : Holds d cells rptr wptr items) :
    (wptr % d = rptr % d ∧ wptr / d ≠ rptr / d) ↔ items.length = d := by
  have hempty := h.empty_iff hd
  obtain ⟨hfits, lo, hr, hw, _⟩ := h
  have hmodw : wptr % d = (lo + items.length) % d := by
    rw [hw, mod_mod_of_dvd _ (Dvd.intro_left 2 rfl)]
  have hmodr : rptr % d = lo % d := by rw [hr, mod_mod_of_dvd _ (Dvd.intro_left 2 rfl)]
  rw [hmodw, hmodr]
  constructor
  · rintro ⟨hmod, hdiv⟩
    have hpos : items.length ≠ 0 := by
      intro hzero
      exact hdiv (by rw [hempty.mpr (length_eq_zero_iff.mp hzero)])
    exact Nat.le_antisymm hfits (Nat.le_of_dvd (Nat.pos_of_ne_zero hpos) (dvd_of_mod_eq hmod))
  · intro hlen
    refine ⟨by rw [hlen, add_mod_right], fun hdiv => ?_⟩
    -- equal halves and equal cells would make the pointers equal
    have heq : wptr = rptr := by
      rw [← div_add_mod wptr d, ← div_add_mod rptr d, hdiv, hmodw, hmodr, hlen, add_mod_right]
    have hnil := hempty.mp heq
    rw [hnil, length_nil] at hlen
    omega

theorem Holds.push (hlt : items.length < d) (h : Holds d cells rptr wptr items) :
    Holds d (Function.update cells (wptr % d) a) rptr ((wptr + 1) % (2 * d)) (items ++ [a]) := by
  obtain ⟨_, lo, hr, hw, hcell⟩ := h
  have hmodw : wptr % d = (lo + items.length) % d := by
    rw [hw, mod_mod_of_dvd _ (Dvd.intro_left 2 rfl)]
  refine ⟨?_, lo, hr, ?_, fun j hj => ?_⟩
  · rw [length_append, length_singleton]
    exact hlt
  · rw [hw, length_append, length_singleton, mod_add_mod, add_assoc]
  · by_cases hold : j < items.length
    · have hne : (lo + j) % d ≠ wptr % d := by
        rw [hmodw]
        intro heq
        obtain ⟨k, hk⟩ := Nat.exists_eq_add_of_lt hold
        rw [hk, show lo + (j + k + 1) = lo + j + (k + 1) by omega] at heq
        have := Nat.le_of_dvd (succ_pos k) (dvd_of_mod_eq heq.symm)
        omega
      rw [Function.update_of_ne hne, hcell j hold, getElem_append_left hold]
    · obtain rfl : j = items.length := by
        rw [length_append, length_singleton] at hj
        omega
      rw [hmodw, Function.update_self, getElem_append_right le_rfl]
      simp

theorem Holds.pop (h : Holds d cells rptr wptr (a :: items)) :
    cells (rptr % d) = a ∧ Holds d cells ((rptr + 1) % (2 * d)) wptr items := by
  obtain ⟨hfits, lo, hr, hw, hcell⟩ := h
  constructor
  · have hfirst := hcell 0 (succ_pos _)
    rw [hr, mod_mod_of_dvd _ (Dvd.intro_left 2 rfl)]
    simpa using hfirst
  · refine ⟨by rw [length_cons] at hfits; omega, lo + 1, ?_, ?_, fun j hj => ?_⟩
    · rw [hr, mod_add_mod]
    · rw [hw, length_cons, add_right_comm, add_assoc]
    · have hnext := hcell (j + 1) (succ_lt_succ hj)
      rw [show lo + 1 + j = lo + (j + 1) by omega, hnext, getElem_cons_succ]

end PointerQueue

import Mathlib.Tactic.Ring

/-!
# Multiplication by shifting and adding

A register of `x + y` bits takes one row a round: the row is added to its upper part, and the whole
moves down by one bit. `Rounds x y k S p` says that after `k` rounds the register holds the sum `S`
of the rows, each with the weight of its round.
-/

namespace ShiftAdd

def shiftAdd (x y row p : ℕ) : ℕ :=
  p / 2 % 2 ^ (y - 1) + (p / 2 ^ y + row) % 2 ^ (x + 1) * 2 ^ (y - 1)

structure Rounds (x y k S p : ℕ) : Prop where
  holds : p = S * 2 ^ y / 2 ^ k
  fits : p < 2 ^ (x + y)

variable {x y k S p row : ℕ}

theorem shiftAdd_eq (hy : 0 < y) (hp : p < 2 ^ (x + y)) (hrow : row < 2 ^ x) :
    shiftAdd x y row p = (p + row * 2 ^ y) / 2 := by
  obtain ⟨z, rfl⟩ := Nat.exists_eq_succ_of_ne_zero hy.ne'
  have htop : p / 2 ^ (z + 1) < 2 ^ x := Nat.div_lt_of_lt_mul (by rwa [← pow_add, add_comm])
  have hsum : p / 2 ^ (z + 1) + row < 2 ^ (x + 1) := by rw [pow_succ 2 x]; omega
  have hsplit := Nat.mod_add_div (p / 2) (2 ^ z)
  rw [shiftAdd, Nat.succ_eq_add_one, Nat.add_sub_cancel, Nat.mod_eq_of_lt hsum, pow_succ',
    ← Nat.div_div_eq_div_mul, add_mul, ← add_assoc, mul_comm (p / 2 / 2 ^ z), hsplit,
    mul_left_comm, Nat.add_mul_div_left _ _ (by norm_num)]

theorem Rounds.start : Rounds x y 0 0 0 := ⟨by simp, Nat.two_pow_pos _⟩

theorem Rounds.next (h : Rounds x y k S p) (hy : 0 < y) (hrow : row < 2 ^ x) :
    Rounds x y (k + 1) (S + row * 2 ^ k) (shiftAdd x y row p) := by
  rw [shiftAdd_eq hy h.fits hrow]
  refine ⟨?_, ?_⟩
  · rw [h.holds, ← Nat.add_mul_div_right _ _ (Nat.two_pow_pos k), Nat.div_div_eq_div_mul,
      ← pow_succ]
    congr 1
    ring
  · have hup : row * 2 ^ y < 2 ^ (x + y) := by
      rw [pow_add]
      exact Nat.mul_lt_mul_of_pos_right hrow (Nat.two_pow_pos y)
    have := h.fits
    omega

end ShiftAdd

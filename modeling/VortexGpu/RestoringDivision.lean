import Mathlib.Tactic.Ring

/-!
# Restoring division, one bit at a time

`Rounds n d w k r q` says that `k` rounds of a restoring division of the `w`-bit number `n` by `d`
have produced the remainder `r` and the quotient `q` of its `k` leading bits. A divisor of zero is
subtracted in every round, so that all bits of the quotient are one.
-/

namespace RestoringDivision

structure Rounds (n d w k r q : ℕ) : Prop where
  split : n / 2 ^ (w - k) = q * d + r
  small : 0 < d → r < d
  ones : d = 0 → q = 2 ^ k - 1
  fits : q < 2 ^ k

variable {n d w k r q : ℕ}

def nextBit (n w k : ℕ) : ℕ := n / 2 ^ (w - (k + 1)) % 2

theorem Rounds.start (hn : n < 2 ^ w) : Rounds n d w 0 0 0 := by
  refine ⟨?_, fun h => h, fun _ => rfl, Nat.one_pos⟩
  rw [Nat.sub_zero, Nat.div_eq_of_lt hn, zero_mul]

theorem leading_succ (hk : k < w) :
    n / 2 ^ (w - (k + 1)) = 2 * (n / 2 ^ (w - k)) + nextBit n w k := by
  have hpow : 2 ^ (w - k) = 2 ^ (w - (k + 1)) * 2 := by
    rw [← pow_succ]
    congr 1
    omega
  rw [hpow, ← Nat.div_div_eq_div_mul, nextBit]
  omega

theorem Rounds.keep (h : Rounds n d w k r q) (hk : k < w) (hlt : 2 * r + nextBit n w k < d) :
    Rounds n d w (k + 1) (2 * r + nextBit n w k) (2 * q) := by
  have hd : d ≠ 0 := by omega
  refine ⟨?_, fun _ => hlt, fun h0 => absurd h0 hd, ?_⟩
  · rw [leading_succ hk, h.split]
    ring
  · have := h.fits
    rw [pow_succ]
    omega

theorem Rounds.subtract (h : Rounds n d w k r q) (hk : k < w) (hle : d ≤ 2 * r + nextBit n w k) :
    Rounds n d w (k + 1) (2 * r + nextBit n w k - d) (2 * q + 1) := by
  have hbit : nextBit n w k < 2 := Nat.mod_lt _ (by norm_num)
  refine ⟨?_, ?_, ?_, ?_⟩
  · rw [leading_succ hk, h.split]
    have hcancel := Nat.sub_add_cancel hle
    generalize 2 * r + nextBit n w k - d = r' at hcancel
    calc 2 * (q * d + r) + nextBit n w k = 2 * q * d + (2 * r + nextBit n w k) := by ring
      _ = (2 * q + 1) * d + r' := by rw [← hcancel]; ring
  · intro hd
    have := h.small hd
    omega
  · intro hd
    have hq := h.ones hd
    have hpos := Nat.two_pow_pos k
    rw [pow_succ]
    omega
  · have := h.fits
    rw [pow_succ]
    omega

theorem Rounds.finished (h : Rounds n d w w r q) :
    q = (if d = 0 then 2 ^ w - 1 else n / d) ∧ r = n % d := by
  have hsplit := h.split
  rw [Nat.sub_self, pow_zero, Nat.div_one] at hsplit
  split_ifs with hd
  · subst hd
    rw [mul_zero, zero_add] at hsplit
    exact ⟨h.ones rfl, by rw [Nat.mod_zero, hsplit]⟩
  · have hr := h.small (pos_of_ne_zero hd)
    rw [hsplit, add_comm, Nat.add_mul_div_right _ _ (pos_of_ne_zero hd), Nat.div_eq_of_lt hr,
      Nat.add_mul_mod_self_right, Nat.mod_eq_of_lt hr]
    exact ⟨(zero_add q).symm, rfl⟩

end RestoringDivision

import VortexGpu.MixedRadix
import Mathlib.Algebra.Order.BigOperators.GroupWithZero.List
import Mathlib.Data.Int.ModEq
import Mathlib.Tactic.Linarith

/-!
# Cursors that follow a mixed-radix counter

A rolling cursor follows the counters by one addition for each step, chosen by the counter that is
incremented while those before it go back to zero. It is right exactly if it starts right and each
addition made is the stride of its counter less what those before it lose.
-/

namespace MixedRadix
open List Nat

variable {rs ds : List ℕ} {ss : List ℤ}

def weigh : List ℤ → List ℕ → ℤ
  | s :: ss, d :: ds => d * s + weigh ss ds
  | _, _ => 0

def carries : List ℕ → List ℕ → ℕ
  | r :: rs, d :: ds => if d + 1 = r then carries rs ds + 1 else 0
  | _, _ => 0

def carryStep : List ℕ → List ℤ → ℕ → ℤ
  | r :: rs, s :: ss, k + 1 => carryStep rs ss k - (r - 1) * s
  | _, s :: _, 0 => s
  | _, _, _ => 0

theorem weigh_next (hlen : ss.length = rs.length) (hds : ds.length = rs.length) :
    weigh ss (next rs ds).1 = weigh ss ds + carryStep rs ss (carries rs ds) := by
  induction rs generalizing ss ds with
  | nil =>
    obtain rfl := length_eq_zero_iff.mp hlen
    obtain rfl := length_eq_zero_iff.mp hds
    rfl
  | cons r rs ih =>
    obtain ⟨s, ss, rfl⟩ := exists_cons_of_length_eq_add_one hlen
    obtain ⟨d, ds, rfl⟩ := exists_cons_of_length_eq_add_one hds
    by_cases hlast : d + 1 = r
    · have hrest := ih (Nat.succ.inj hlen) (Nat.succ.inj hds)
      rw [next, if_pos hlast, carries, if_pos hlast, weigh, weigh, carryStep, hrest, ← hlast]
      push_cast
      ring
    · rw [next, if_neg hlast, carries, if_neg hlast, weigh, weigh, carryStep]
      push_cast
      ring

theorem length_digits (rs : List ℕ) (n : ℕ) : (digits rs n).length = rs.length := by
  induction rs generalizing n with
  | nil => rfl
  | cons r rs ih => rw [digits, length_cons, length_cons, ih]

theorem carries_spec (h : ∀ r ∈ rs, 0 < r) {n : ℕ} (hn : n + 1 < rs.prod) :
    ∃ r, rs[carries rs (digits rs n)]? = some r ∧ 2 ≤ r := by
  induction rs generalizing n with
  | nil => exact absurd hn (by simp)
  | cons r rs ih =>
    have hr : 0 < r := h r mem_cons_self
    rw [digits, carries]
    by_cases hlast : n % r + 1 = r
    · rw [if_pos hlast, getElem?_cons_succ]
      refine ih (fun x hx => h x (mem_cons_of_mem r hx)) ?_
      rw [prod_cons] at hn
      have hsucc : n + 1 = r * (n / r + 1) := by
        have := mod_add_div n r
        rw [mul_add, mul_one]
        omega
      rw [hsucc] at hn
      exact Nat.lt_of_mul_lt_mul_left hn
    · rw [if_neg hlast]
      have := mod_lt n hr
      exact ⟨r, rfl, by omega⟩

theorem exists_carries (h : ∀ r ∈ rs, 0 < r) {k r : ℕ} (hk : rs[k]? = some r) (hr : 2 ≤ r) :
    ∃ n, n + 1 < rs.prod ∧ carries rs (digits rs n) = k := by
  induction rs generalizing k with
  | nil => exact absurd hk (by simp)
  | cons q rs ih =>
    have hq : 0 < q := h q mem_cons_self
    have htail : ∀ x ∈ rs, 0 < x := fun x hx => h x (mem_cons_of_mem q hx)
    have hprod : 0 < rs.prod := prod_pos htail
    cases k with
    | zero =>
      rw [getElem?_cons_zero, Option.some_inj] at hk
      subst hk
      refine ⟨0, ?_, ?_⟩
      · rw [prod_cons]
        exact lt_of_lt_of_le (by omega) (Nat.le_mul_of_pos_right q hprod)
      · rw [digits, carries, zero_mod, if_neg (by omega)]
    | succ k =>
      rw [getElem?_cons_succ] at hk
      obtain ⟨n, hn, hcarries⟩ := ih htail hk
      refine ⟨q * n + (q - 1), ?_, ?_⟩
      · rw [prod_cons]
        calc q * n + (q - 1) + 1 = q * (n + 1) := by
              rw [mul_add, mul_one]
              omega
          _ < q * rs.prod := Nat.mul_lt_mul_of_pos_left hn hq
      · have hmod : (q * n + (q - 1)) % q = q - 1 := by
          rw [mul_add_mod, mod_eq_of_lt (by omega)]
        have hdiv : (q * n + (q - 1)) / q = n := by
          rw [mul_add_div hq, div_eq_of_lt (by omega), add_zero]
        rw [digits, carries, hmod, if_pos (by omega), hdiv, hcarries]

/-- A rolling cursor is right exactly if it starts right and all the additions it makes are. -/
theorem cursor_iff {M A : ℤ} (cur δ : ℕ → ℤ) (h : ∀ r ∈ rs, 0 < r)
    (hlen : ss.length = rs.length)
    (hcur : ∀ n, n + 1 < rs.prod →
      cur (n + 1) ≡ cur n + δ (carries rs (digits rs n)) [ZMOD M]) :
    (∀ n < rs.prod, cur n ≡ A + weigh ss (digits rs n) [ZMOD M]) ↔
      cur 0 ≡ A [ZMOD M] ∧ ∀ k r, rs[k]? = some r → 2 ≤ r →
      δ k ≡ carryStep rs ss k [ZMOD M] := by
  have hnext : ∀ n, n + 1 < rs.prod → weigh ss (digits rs (n + 1)) =
      weigh ss (digits rs n) + carryStep rs ss (carries rs (digits rs n)) := by
    intro n hn
    rw [← weigh_next hlen (length_digits rs n), next_digits h (by omega)]
  have hzero : weigh ss (digits rs 0) = 0 := by
    clear hcur hnext
    induction rs generalizing ss with
    | nil =>
      obtain rfl := length_eq_zero_iff.mp hlen
      rfl
    | cons r rs ih =>
      obtain ⟨s, ss, rfl⟩ := exists_cons_of_length_eq_add_one hlen
      rw [digits, weigh, zero_mod, Nat.zero_div,
        ih (fun x hx => h x (mem_cons_of_mem r hx)) (Nat.succ.inj hlen)]
      simp
  constructor
  · intro hright
    refine ⟨?_, fun k r hk hr => ?_⟩
    · have h0 := hright 0 (prod_pos h)
      rwa [hzero, add_zero] at h0
    · obtain ⟨n, hn, hcarries⟩ := exists_carries h hk hr
      have hstep := (hcur n hn).symm.trans (hright (n + 1) hn)
      rw [hnext n hn, hcarries, ← add_assoc] at hstep
      exact Int.ModEq.add_left_cancel (hright n (by omega)) hstep
  · rintro ⟨hstart, hsteps⟩ n hn
    induction n with
    | zero => rwa [hzero, add_zero]
    | succ n ih =>
      obtain ⟨r, hk, hr⟩ := carries_spec h hn
      have hδ := hsteps _ r hk hr
      rw [hnext n hn, ← add_assoc]
      exact (hcur n hn).trans ((ih (by omega)).add hδ)

end MixedRadix

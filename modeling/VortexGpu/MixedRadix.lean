import Mathlib.Algebra.BigOperators.Group.List.Basic
import Mathlib.Tactic.Ring

/-!
# Mixed-radix counters

Nested counters, the fastest one first, each with its own radix. `next` advances
them the way nested loops do: a counter at its last value goes back to zero and
carries into the next one. Its flag is the carry out of the last counter.
-/

namespace MixedRadix
open List Nat

variable {rs ds : List ℕ} {n : ℕ}

def digits : List ℕ → ℕ → List ℕ
  | [], _ => []
  | r :: rs, n => n % r :: digits rs (n / r)

def value : List ℕ → List ℕ → ℕ
  | r :: rs, d :: ds => d + r * value rs ds
  | _, _ => 0

def next : List ℕ → List ℕ → List ℕ × Bool
  | r :: rs, d :: ds =>
    if d + 1 = r then (0 :: (next rs ds).1, (next rs ds).2) else ((d + 1) :: ds, false)
  | _, _ => ([], true)

theorem digits_zero (rs : List ℕ) : digits rs 0 = replicate rs.length 0 := by
  induction rs with
  | nil => rfl
  | cons r rs ih => rw [digits, Nat.zero_mod, Nat.zero_div, ih, length_cons, replicate_succ]

theorem digits_lt (h : ∀ r ∈ rs, 0 < r) (n : ℕ) :
    List.Forall₂ (· < ·) (digits rs n) rs := by
  induction rs generalizing n with
  | nil => exact .nil
  | cons r rs ih =>
    exact .cons (mod_lt n (h r mem_cons_self))
      (ih (fun x hx => h x (mem_cons_of_mem r hx)) (n / r))

theorem digits_append (rs rs' : List ℕ) (n : ℕ) :
    digits (rs ++ rs') n = digits rs n ++ digits rs' (n / rs.prod) := by
  induction rs generalizing n with
  | nil => rw [nil_append, digits, prod_nil, Nat.div_one, nil_append]
  | cons r rs ih =>
    rw [cons_append, digits, digits, ih, prod_cons, Nat.div_div_eq_div_mul, cons_append]

theorem digits_mod (rs : List ℕ) (n : ℕ) : digits rs (n % rs.prod) = digits rs n := by
  induction rs generalizing n with
  | nil => rfl
  | cons r rs ih =>
    rw [prod_cons, digits, digits, mod_mul_right_mod, mod_mul_right_div_self, ih]

theorem next_digits (h : ∀ r ∈ rs, 0 < r) (hn : n < rs.prod) :
    next rs (digits rs n) = (digits rs (n + 1), decide (n + 1 = rs.prod)) := by
  induction rs generalizing n with
  | nil =>
    rw [prod_nil, lt_one_iff] at hn
    subst hn
    rfl
  | cons r rs ih =>
    have hr : 0 < r := h r mem_cons_self
    have hdiv := mod_add_div n r
    rw [prod_cons] at hn
    have hq : n / r < rs.prod := Nat.div_lt_of_lt_mul hn
    rw [digits, digits, next, prod_cons]
    by_cases hlast : n % r + 1 = r
    · have hsucc : n + 1 = r * (n / r + 1) := by
        rw [mul_add, mul_one]
        omega
      rw [if_pos hlast, ih (fun x hx => h x (mem_cons_of_mem r hx)) hq, hsucc,
        Nat.mul_mod_right, Nat.mul_div_cancel_left _ hr]
      simp only [Nat.mul_left_cancel_iff hr]
    · have hlt : n % r + 1 < r := by
        have hm := mod_lt n hr
        omega
      have hsucc : n + 1 = n % r + 1 + r * (n / r) := by omega
      have hne : n + 1 ≠ r * rs.prod := by
        intro heq
        have hmod : (n + 1) % r = 0 := by rw [heq, Nat.mul_mod_right]
        rw [hsucc, add_mul_mod_self_left, mod_eq_of_lt hlt] at hmod
        omega
      rw [if_neg hlast, decide_eq_false hne, hsucc, add_mul_mod_self_left, mod_eq_of_lt hlt,
        add_mul_div_left _ _ hr, div_eq_of_lt hlt, zero_add]

theorem value_digits (hn : n < rs.prod) : value rs (digits rs n) = n := by
  induction rs generalizing n with
  | nil =>
    rw [prod_nil, lt_one_iff] at hn
    rw [hn]
    rfl
  | cons r rs ih =>
    rw [prod_cons] at hn
    rw [digits, value, ih (Nat.div_lt_of_lt_mul hn)]
    exact mod_add_div n r

theorem digits_eq_zero_iff (h : 0 < rs.prod) (n : ℕ) :
    digits rs n = digits rs 0 ↔ n % rs.prod = 0 := by
  constructor
  · intro heq
    calc n % rs.prod = value rs (digits rs (n % rs.prod)) := (value_digits (mod_lt n h)).symm
      _ = value rs (digits rs 0) := by rw [digits_mod, heq]
      _ = 0 := value_digits h
  · intro hzero
    rw [← digits_mod, hzero]

theorem digits_value (h : List.Forall₂ (· < ·) ds rs) :
    digits rs (value rs ds) = ds ∧ value rs ds < rs.prod := by
  induction h with
  | nil => exact ⟨rfl, zero_lt_one⟩
  | @cons d r ds rs hd _ ih =>
    obtain ⟨hdigits, hlt⟩ := ih
    have hr : 0 < r := by omega
    constructor
    · rw [value, digits, add_mul_mod_self_left, mod_eq_of_lt hd,
        add_mul_div_left _ _ hr, div_eq_of_lt hd, zero_add, hdigits]
    · have hmul := mul_le_mul_left r hlt
      rw [mul_succ] at hmul
      rw [value, prod_cons]
      omega

theorem block_div_mod {n q m : ℕ} (hm : m < n) : (n * q + m) % n = m ∧ (n * q + m) / n = q := by
  constructor
  · rw [mul_add_mod, mod_eq_of_lt hm]
  · rw [mul_add_div (by omega), div_eq_of_lt hm, add_zero]

theorem add_carry {n : ℕ} (hn : 0 < n) (a b : ℕ) {c : ℕ} (hc : c ≤ 1) :
    (a + b + c) % n = (if n ≤ a % n + b % n + c then a % n + b % n + c - n
      else a % n + b % n + c) ∧
    (a + b + c) / n = a / n + b / n + if n ≤ a % n + b % n + c then 1 else 0 := by
  have ha := mod_lt a hn
  have hb := mod_lt b hn
  have ha' := div_add_mod a n
  have hb' := div_add_mod b n
  split_ifs with h
  · have hsum : a + b + c = n * (a / n + b / n + 1) + (a % n + b % n + c - n) := by
      rw [mul_add, mul_add, mul_one]
      omega
    obtain ⟨hmod, hdiv⟩ :=
      block_div_mod (q := a / n + b / n + 1) (by omega : a % n + b % n + c - n < n)
    exact ⟨by rw [hsum, hmod], by rw [hsum, hdiv]⟩
  · have hsum : a + b + c = n * (a / n + b / n) + (a % n + b % n + c) := by
      rw [mul_add]
      omega
    obtain ⟨hmod, hdiv⟩ := block_div_mod (q := a / n + b / n) (by omega : a % n + b % n + c < n)
    exact ⟨by rw [hsum, hmod], by rw [hsum, hdiv, add_zero]⟩

theorem add_div_mod {n : ℕ} (hn : 0 < n) (a b : ℕ) : (a + b) / n = a / n + (a % n + b) / n := by
  have h : a + b = n * (a / n) + (a % n + b) := by
    have := div_add_mod a n
    omega
  calc (a + b) / n = (n * (a / n) + (a % n + b)) / n := by rw [← h]
    _ = a / n + (a % n + b) / n := mul_add_div hn _ _

end MixedRadix

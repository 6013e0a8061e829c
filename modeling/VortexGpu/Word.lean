import Mathlib.Data.Nat.Bitwise
import Mathlib.Tactic.Ring

/-!
# Unsigned machine words over the natural numbers

A machine word is a natural number, and every operation that can leave the range of its word, of 64
or 32 bits, reduces its result explicitly. Each comes with the equation it satisfies when nothing
wraps.
-/

namespace Word
open Nat

def add64 (a b : ℕ) : ℕ := (a + b) % 2 ^ 64
def sub64 (a b : ℕ) : ℕ := (a + (2 ^ 64 - b)) % 2 ^ 64
def not64 (a : ℕ) : ℕ := 2 ^ 64 - 1 - a
def mul64 (a b : ℕ) : ℕ := (a * b) % 2 ^ 64
def shl64 (a k : ℕ) : ℕ := (a <<< k) % 2 ^ 64
def add32 (a b : ℕ) : ℕ := (a + b) % 2 ^ 32
def mul32 (a b : ℕ) : ℕ := (a * b) % 2 ^ 32

theorem add64_lt (a b : ℕ) : add64 a b < 2 ^ 64 := mod_lt _ (by norm_num)

variable {a b k size : ℕ}

theorem add64_of_lt (h : a + b < 2 ^ 64) : add64 a b = a + b := mod_eq_of_lt h

theorem add64_add64 (a i j : ℕ) : add64 (add64 a i) j = add64 a (i + j) := by
  unfold add64
  omega

theorem add32_of_lt (h : a + b < 2 ^ 32) : add32 a b = a + b := mod_eq_of_lt h

theorem add32_add32_of_lt {c : ℕ} (h : a + b + c < 2 ^ 32) : add32 (add32 a b) c = a + b + c := by
  rw [add32_of_lt (by omega : a + b < 2 ^ 32), add32_of_lt h]

theorem mul32_of_lt (h : a * b < 2 ^ 32) : mul32 a b = a * b := mod_eq_of_lt h

theorem sub64_of_le (ha : a < 2 ^ 64) (h : b ≤ a) : sub64 a b = a - b := by
  unfold sub64
  omega

theorem shl64_of_lt (h : a * 2 ^ k < 2 ^ 64) : shl64 a k = a * 2 ^ k := by
  rw [shl64, shiftLeft_eq]
  exact mod_eq_of_lt h

theorem land_high {x w : ℕ} (hx : x < 2 ^ w) (hk : k ≤ w) :
    x &&& (2 ^ w - 2 ^ k) = x / 2 ^ k * 2 ^ k := by
  have hpos : 0 < 2 ^ k := Nat.two_pow_pos k
  have hle : 2 ^ k ≤ 2 ^ w := Nat.pow_le_pow_right (by norm_num) hk
  have hmask : 2 ^ w - 2 ^ k = 2 ^ w - ((2 ^ k - 1) + 1) := by omega
  apply eq_of_testBit_eq
  intro i
  rw [testBit_and, hmask, testBit_two_pow_sub_succ (by omega),
    testBit_two_pow_sub_one, ← shiftRight_eq_div_pow, ← shiftLeft_eq,
    testBit_shiftLeft, testBit_shiftRight]
  by_cases hik : i < k
  · simp [hik]
  have h : k + (i - k) = i := by omega
  by_cases hi : i < w
  · simp [hik, hi, h, Nat.le_of_not_lt hik]
  · have hz : x.testBit i = false := testBit_lt_two_pow
      (hx.trans_le (Nat.pow_le_pow_right (by norm_num) (Nat.le_of_not_lt hi)))
    simp [hi, h, hz]

theorem land_not64_mask {x : ℕ} (hx : x < 2 ^ 64) (hk : k ≤ 64) :
    x &&& not64 (2 ^ k - 1) = x / 2 ^ k * 2 ^ k := by
  have hpos : 0 < 2 ^ k := Nat.two_pow_pos k
  have hle : 2 ^ k ≤ 2 ^ 64 := Nat.pow_le_pow_right (by norm_num) hk
  have hmask : not64 (2 ^ k - 1) = 2 ^ 64 - 2 ^ k := by
    unfold not64
    omega
  rw [hmask, land_high hx hk]

theorem land_mask (x k : ℕ) : x &&& (2 ^ k - 1) = x % 2 ^ k := and_two_pow_sub_one_eq_mod x k

/-- `(size + alignment - 1) & ~(alignment - 1)`, with the wrap-around of each operation. -/
def alignUp64 (size alignment : ℕ) : ℕ :=
  sub64 (add64 size alignment) 1 &&& not64 (sub64 alignment 1)

theorem alignUp64_eq (hk : k < 64) (h : size + 2 ^ k - 1 < 2 ^ 64) :
    alignUp64 size (2 ^ k) = (size + 2 ^ k - 1) / 2 ^ k * 2 ^ k := by
  have hpos : 0 < 2 ^ k := Nat.two_pow_pos k
  have hlt : 2 ^ k < 2 ^ 64 := Nat.pow_lt_pow_right (by norm_num) hk
  have hsub : sub64 (2 ^ k) 1 = 2 ^ k - 1 := sub64_of_le hlt hpos
  have hadd : sub64 (add64 size (2 ^ k)) 1 = size + 2 ^ k - 1 := by
    unfold sub64 add64
    omega
  rw [alignUp64, hsub, hadd, land_not64_mask h hk.le]

theorem le_alignUp64 (hk : k < 64) (h : size + 2 ^ k - 1 < 2 ^ 64) :
    size ≤ alignUp64 size (2 ^ k) := by
  rw [alignUp64_eq hk h]
  have hdm := div_add_mod' (size + 2 ^ k - 1) (2 ^ k)
  omega

theorem dvd_alignUp64 (hk : k < 64) (h : size + 2 ^ k - 1 < 2 ^ 64) :
    2 ^ k ∣ alignUp64 size (2 ^ k) := by
  rw [alignUp64_eq hk h]
  exact dvd_mul_left _ _

theorem lt_ceil_div {n r : ℕ} (hn : 0 < n) : r < (a + n - 1) / n ↔ r * n < a := by
  rw [← succ_le_iff, le_div_iff_mul_le hn, succ_mul]
  omega

end Word

import Mathlib.Data.Nat.Log
import Mathlib.Algebra.Order.Field.Rat
import Mathlib.Tactic

/-!
# Rounding to a grid and by a shift

The five rounding directions of binary floating point, for magnitudes with a sign beside them.
`Rounded` says what the rounding of a rational to an increasing grid is. `roundShift` rounds a
natural number by a number of bits. Rounding first by `s` and then by `t` bits is rounding by `s +
t` bits except where `RoundsTwice` says.
-/

namespace DyadicRounding
open Nat

/-- To nearest with ties to even, to zero, down, up, and to nearest with ties away from zero. -/
inductive Mode
  | rne | rtz | rdn | rup | rmm
deriving DecidableEq, Repr

def Nearest (g : ℕ → ℚ) (a : ℚ) (r : ℕ) : Prop := ∀ c, |a - g r| ≤ |a - g c|

/-- The grid point `r` is the rounding of the magnitude `a` of a number with sign `neg`. -/
def Rounded (g : ℕ → ℚ) (mode : Mode) (neg : Bool) (a : ℚ) (r : ℕ) : Prop :=
  match mode, neg with
  | .rne, _ => Nearest g a r ∧ ∀ c, c ≠ r → |a - g c| = |a - g r| → Even r
  | .rmm, _ => Nearest g a r ∧ ∀ c, c ≠ r → |a - g c| = |a - g r| → c < r
  | .rtz, _ => IsGreatest {c | g c ≤ a} r
  | .rdn, false => IsGreatest {c | g c ≤ a} r
  | .rup, true => IsGreatest {c | g c ≤ a} r
  | .rdn, true => IsLeast {c | a ≤ g c} r
  | .rup, false => IsLeast {c | a ≤ g c} r

section Grid

variable {g : ℕ → ℚ} {a : ℚ} {f r : ℕ}

theorem dist_of_le (hg : StrictMono g) (hlo : g f ≤ a) {c : ℕ} (hc : c ≤ f) :
    |a - g c| = a - g c ∧ a - g f ≤ a - g c := by
  have hle := hg.monotone hc
  exact ⟨abs_of_nonneg (by linarith), by linarith⟩

theorem dist_of_gt (hg : StrictMono g) (hhi : a < g (f + 1)) {c : ℕ} (hc : f + 1 ≤ c) :
    |a - g c| = g c - a ∧ g (f + 1) - a ≤ g c - a := by
  have hle := hg.monotone hc
  refine ⟨?_, by linarith⟩
  rw [abs_of_nonpos (by linarith)]
  ring

theorem Nearest.of_tie (h : Nearest g a r) {c : ℕ} (htie : |a - g c| = |a - g r|) :
    Nearest g a c := by
  intro d
  rw [htie]
  exact h d

section
variable (hg : StrictMono g) (hlo : g f ≤ a) (hhi : a < g (f + 1))
include hg hlo hhi

theorem nearest_iff :
    Nearest g a r ↔ (r = f ∧ a - g f ≤ g (f + 1) - a) ∨
    (r = f + 1 ∧ g (f + 1) - a ≤ a - g f) := by
  have hf := dist_of_le hg hlo (le_refl f)
  have hs := dist_of_gt hg hhi (le_refl (f + 1))
  constructor
  · intro h
    have h1 := h f
    have h2 := h (f + 1)
    rw [hf.1] at h1
    rw [hs.1] at h2
    rcases lt_or_ge f r with hlt | hge
    · right
      rw [(dist_of_gt hg hhi hlt).1] at h1 h2
      have heq : r = f + 1 := by
        by_contra hne
        have := hg (show f + 1 < r by omega)
        linarith
      subst heq
      exact ⟨rfl, h1⟩
    · left
      rw [(dist_of_le hg hlo hge).1] at h1 h2
      have heq : r = f := by
        by_contra hne
        have := hg (show r < f by omega)
        linarith
      subst heq
      exact ⟨rfl, h2⟩
  · intro h c
    rcases lt_or_ge f c with hlt | hge
    · have hc := dist_of_gt hg hhi hlt
      rcases h with ⟨rfl, h⟩ | ⟨rfl, _⟩
      · rw [hf.1, hc.1]
        linarith
      · rw [hs.1, hc.1]
        exact hc.2
    · have hc := dist_of_le hg hlo hge
      rcases h with ⟨rfl, _⟩ | ⟨rfl, h⟩
      · rw [hf.1, hc.1]
        exact hc.2
      · rw [hs.1, hc.1]
        linarith

theorem greatest_iff : IsGreatest {c | g c ≤ a} r ↔ r = f := by
  have hf : IsGreatest {c | g c ≤ a} f := by
    refine ⟨hlo, fun c hc => ?_⟩
    have hlt : g c < g (f + 1) := lt_of_le_of_lt hc hhi
    exact Nat.lt_succ_iff.mp (hg.lt_iff_lt.mp hlt)
  exact ⟨fun h => h.unique hf, fun h => h ▸ hf⟩

theorem least_iff : IsLeast {c | a ≤ g c} r ↔ r = if a = g f then f else f + 1 := by
  have hleast : IsLeast {c | a ≤ g c} (if a = g f then f else f + 1) := by
    split
    · rename_i heq
      refine ⟨le_of_eq heq, fun c hc => ?_⟩
      exact hg.le_iff_le.mp (by rw [← heq]; exact hc)
    · rename_i hne
      refine ⟨le_of_lt hhi, fun c hc => ?_⟩
      have hlt : g f < g c := lt_of_lt_of_le (lt_of_le_of_ne hlo (Ne.symm hne)) hc
      exact hg.lt_iff_lt.mp hlt
  exact ⟨fun h => h.unique hleast, fun h => h ▸ hleast⟩

end

theorem rounded_self_iff (hg : StrictMono g) (mode : Mode) (neg : Bool) :
    Rounded g mode neg (g f) r ↔ r = f := by
  have hlt : g f < g (f + 1) := hg (lt_succ_self f)
  have hgreatest := greatest_iff (r := r) hg (le_refl (g f)) hlt
  have hleast := least_iff (r := r) hg (le_refl (g f)) hlt
  rw [if_pos rfl] at hleast
  have hdist : ∀ c, |g f - g c| = 0 ↔ c = f := by
    intro c
    rw [abs_eq_zero, sub_eq_zero, eq_comm]
    exact hg.injective.eq_iff
  have hnearest : Nearest g (g f) r ↔ r = f := by
    refine ⟨fun h => ?_, fun h c => ?_⟩
    · have hle := h f
      rw [(hdist f).mpr rfl] at hle
      exact (hdist r).mp (le_antisymm hle (abs_nonneg _))
    · rw [(hdist r).mpr h]
      exact abs_nonneg _
  have htie : ∀ (P : ℕ → Prop),
      (Nearest g (g f) r ∧ ∀ c, c ≠ r → |g f - g c| = |g f - g r| → P c) ↔
      r = f := by
    intro P
    rw [hnearest]
    refine ⟨fun h => h.1, fun h => ⟨h, fun c hc heq => ?_⟩⟩
    rw [(hdist r).mpr h, hdist, ← h] at heq
    exact absurd heq hc
  cases mode <;> cases neg <;> first
    | exact hgreatest
    | exact hleast
    | exact htie _

end Grid

/-- Whether the magnitude is increased, when `rem` out of `unit` is cut off. -/
def increments (mode : Mode) (neg odd : Bool) (rem unit : ℕ) : Bool :=
  match mode with
  | .rne => decide (unit < 2 * rem) || (decide (2 * rem = unit) && odd)
  | .rtz => false
  | .rdn => neg && decide (rem ≠ 0)
  | .rup => !neg && decide (rem ≠ 0)
  | .rmm => decide (unit ≤ 2 * rem)

def roundShift (mode : Mode) (neg : Bool) (m k : ℕ) : ℕ :=
  m / 2 ^ k + (increments mode neg (decide (m / 2 ^ k % 2 = 1)) (m % 2 ^ k) (2 ^ k)).toNat

theorem increments_rne (neg odd : Bool) (rem unit : ℕ) :
    increments .rne neg odd rem unit = true ↔ unit < 2 * rem ∨
    (2 * rem = unit ∧ odd = true) := by
  simp [increments]

theorem increments_rmm (neg odd : Bool) (rem unit : ℕ) :
    increments .rmm neg odd rem unit = true ↔ unit ≤ 2 * rem := by
  simp [increments]

section
variable (mode : Mode)
include mode

theorem increments_zero (neg odd : Bool) {unit : ℕ} (hu : 0 < unit) :
    increments mode neg odd 0 unit = false := by
  cases mode <;> simp [increments] <;> omega

theorem roundShift_exact (neg : Bool) {m k : ℕ} (h : m % 2 ^ k = 0) :
    roundShift mode neg m k = m / 2 ^ k := by
  rw [roundShift, h, increments_zero mode neg _ (Nat.two_pow_pos k)]
  rfl

theorem roundShift_zero (neg : Bool) (m : ℕ) : roundShift mode neg m 0 = m := by
  rw [roundShift_exact mode neg (by simp [mod_one])]
  simp

theorem roundShift_le (neg : Bool) (m k : ℕ) : roundShift mode neg m k ≤ m / 2 ^ k + 1 := by
  rw [roundShift]
  have := Bool.toNat_le (increments mode neg (decide (m / 2 ^ k % 2 = 1)) (m % 2 ^ k) (2 ^ k))
  omega

theorem le_roundShift (neg : Bool) (m k : ℕ) : m / 2 ^ k ≤ roundShift mode neg m k :=
  le_add_right _ _

theorem increments_double (neg odd : Bool) (rem unit : ℕ) :
    increments mode neg odd (2 * rem) (2 * unit) = increments mode neg odd rem unit := by
  cases mode with
  | rne =>
    simp only [increments]
    rw [decide_eq_decide.mpr (show 2 * unit < 2 * (2 * rem) ↔ unit < 2 * rem by omega),
      decide_eq_decide.mpr (show 2 * (2 * rem) = 2 * unit ↔ 2 * rem = unit by omega)]
  | rtz => rfl
  | rdn | rup => simp [increments]
  | rmm => simp only [increments, decide_eq_decide]; omega

theorem roundShift_double (neg : Bool) (x k : ℕ) :
    roundShift mode neg (2 * x) (k + 1) = roundShift mode neg x k := by
  have hdiv : 2 * x / 2 ^ (k + 1) = x / 2 ^ k := by
    rw [pow_succ', Nat.mul_div_mul_left _ _ (by norm_num)]
  have hmod : 2 * x % 2 ^ (k + 1) = 2 * (x % 2 ^ k) := by
    rw [pow_succ', Nat.mul_mod_mul_left]
  rw [roundShift, hdiv, hmod, pow_succ', increments_double]
  rfl

end

section Local

variable {g : ℕ → ℚ} {a step : ℚ} {f m k r : ℕ}

theorem between (hstep : 0 < step) (hlo : g f = (m / 2 ^ k : ℕ) * step)
    (hhi : g (f + 1) = ((m / 2 ^ k : ℕ) + 1) * step) (ha : a * 2 ^ k = m * step) :
    g f ≤ a ∧ a < g (f + 1) ∧ (a = g f ↔ m % 2 ^ k = 0) ∧
      (g (f + 1) - a ≤ a - g f ↔ 2 ^ k ≤ 2 * (m % 2 ^ k)) ∧
      (a - g f ≤ g (f + 1) - a ↔ 2 * (m % 2 ^ k) ≤ 2 ^ k) := by
  have hu : (0 : ℚ) < 2 ^ k := by positivity
  have hm : (m : ℚ) = 2 ^ k * (m / 2 ^ k : ℕ) + (m % 2 ^ k : ℕ) := by
    exact_mod_cast (div_add_mod m (2 ^ k)).symm
  have hlt : ((m % 2 ^ k : ℕ) : ℚ) < 2 ^ k := by exact_mod_cast Nat.mod_lt m (Nat.two_pow_pos k)
  have hge : (0 : ℚ) ≤ (m % 2 ^ k : ℕ) := cast_nonneg _
  have hbelow : (a - g f) * 2 ^ k = (m % 2 ^ k : ℕ) * step := by
    rw [sub_mul, ha, hlo, hm]
    ring
  have habove : (g (f + 1) - a) * 2 ^ k = (2 ^ k - (m % 2 ^ k : ℕ)) * step := by
    rw [sub_mul, ha, hhi, hm]
    ring
  have hcast : ((2 ^ k : ℕ) : ℚ) = 2 ^ k := by push_cast; rfl
  refine ⟨?_, ?_, ?_, ?_, ?_⟩
  · have h := mul_nonneg hge hstep.le
    rw [← hbelow] at h
    have := nonneg_of_mul_nonneg_left h hu
    linarith
  · have h := mul_pos (sub_pos.mpr hlt) hstep
    rw [← habove] at h
    have := (pos_iff_pos_of_mul_pos h).mpr hu
    linarith
  · rw [← sub_eq_zero, ← mul_eq_zero_iff_right hu.ne', hbelow, mul_eq_zero_iff_right hstep.ne',
      cast_eq_zero]
  · rw [← mul_le_mul_iff_left₀ hu, hbelow, habove, mul_le_mul_iff_left₀ hstep, ← hcast,
      sub_le_iff_le_add]
    norm_cast
    rw [two_mul]
  · rw [← mul_le_mul_iff_left₀ hu, hbelow, habove, mul_le_mul_iff_left₀ hstep, ← hcast,
      le_sub_iff_add_le]
    norm_cast
    rw [two_mul]

theorem nearest_tie_iff (hg : StrictMono g) (hle : g f ≤ a) (hlt : a < g (f + 1))
    (hup : g (f + 1) - a ≤ a - g f ↔ 2 ^ k ≤ 2 * (m % 2 ^ k))
    (hdown : a - g f ≤ g (f + 1) - a ↔ 2 * (m % 2 ^ k) ≤ 2 ^ k)
    (prefers : ℕ → ℕ → Prop) :
    (Nearest g a r ∧ ∀ c, c ≠ r → |a - g c| = |a - g r| → prefers c r) ↔
      (r = f ∧ (2 * (m % 2 ^ k) < 2 ^ k ∨ (2 * (m % 2 ^ k) = 2 ^ k ∧ prefers (f + 1) f))) ∨
      (r = f + 1 ∧
        (2 ^ k < 2 * (m % 2 ^ k) ∨ (2 * (m % 2 ^ k) = 2 ^ k ∧ prefers f (f + 1)))) := by
  have hn := fun r => nearest_iff (r := r) hg hle hlt
  have htie : |a - g f| = |a - g (f + 1)| ↔ 2 * (m % 2 ^ k) = 2 ^ k := by
    rw [(dist_of_le hg hle (le_refl f)).1, (dist_of_gt hg hlt (le_refl (f + 1))).1, le_antisymm_iff,
      hdown, hup, ← le_antisymm_iff]
  rw [hdown, hup] at hn
  constructor
  · rintro ⟨hr, ht⟩
    rcases (hn r).mp hr with ⟨rfl, h⟩ | ⟨rfl, h⟩
    · left
      refine ⟨rfl, ?_⟩
      rcases lt_or_eq_of_le h with hl | heq
      · exact .inl hl
      · exact .inr ⟨heq, ht _ (by omega) (htie.mpr heq).symm⟩
    · right
      refine ⟨rfl, ?_⟩
      rcases lt_or_eq_of_le h with hl | heq
      · exact .inl hl
      · exact .inr ⟨heq.symm, ht _ (by omega) (htie.mpr heq.symm)⟩
  · -- a point at the same distance is nearest too, so it is the other neighbour
    rintro (⟨rfl, h⟩ | ⟨rfl, h⟩)
    · have hr : Nearest g a r := (hn r).mpr (.inl ⟨rfl, by omega⟩)
      refine ⟨hr, fun c hc htc => ?_⟩
      rcases (hn c).mp (hr.of_tie htc) with ⟨rfl, -⟩ | ⟨rfl, hc⟩
      · exact absurd rfl hc
      · rcases h with h | h
        · omega
        · exact h.2
    · have hr : Nearest g a (f + 1) := (hn (f + 1)).mpr (.inr ⟨rfl, by omega⟩)
      refine ⟨hr, fun c hc htc => ?_⟩
      rcases (hn c).mp (hr.of_tie htc) with ⟨rfl, hc⟩ | ⟨rfl, -⟩
      · rcases h with h | h
        · omega
        · exact h.2
      · exact absurd rfl hc

/-- Where the grid is even around `a`, rounding to it is rounding by a shift. -/
theorem rounded_local (hg : StrictMono g) (mode : Mode) (neg : Bool) (hstep : 0 < step)
    (hlo : g f = (m / 2 ^ k : ℕ) * step) (hhi : g (f + 1) = ((m / 2 ^ k : ℕ) + 1) * step)
    (ha : a * 2 ^ k = m * step) (hodd : f % 2 = m / 2 ^ k % 2) : Rounded g mode neg a r ↔
      r = f + (increments mode neg (decide (m / 2 ^ k % 2 = 1)) (m % 2 ^ k) (2 ^ k)).toNat := by
  obtain ⟨hle, hlt, hexact, hup, hdown⟩ := between hstep hlo hhi ha
  have haway : (r = if a = g f then f else f + 1) ↔ r = f + (decide (m % 2 ^ k ≠ 0)).toNat := by
    simp only [hexact]
    by_cases h0 : m % 2 ^ k = 0 <;> simp [h0]
  cases mode with
  | rtz => simpa [Rounded, increments] using greatest_iff hg hle hlt
  | rdn | rup =>
    cases neg <;> first
      | simpa [Rounded, increments] using greatest_iff hg hle hlt
      | simpa [Rounded, increments] using (least_iff hg hle hlt).trans haway
  | rmm =>
    refine (nearest_tie_iff hg hle hlt hup hdown (fun c r => c < r)).trans ?_
    simp only [increments]
    by_cases hge : 2 ^ k ≤ 2 * (m % 2 ^ k)
    · simp only [hge, decide_true, Bool.toNat_true]
      omega
    · simp only [hge, decide_false, Bool.toNat_false]
      omega
  | rne =>
    refine (nearest_tie_iff hg hle hlt hup hdown (fun _ r => Even r)).trans ?_
    have hinc := increments_rne neg (decide (m / 2 ^ k % 2 = 1)) (m % 2 ^ k) (2 ^ k)
    rw [← hodd] at hinc ⊢
    simp only [decide_eq_true_eq] at hinc
    rw [even_iff, even_iff]
    by_cases hi : increments .rne neg (decide (f % 2 = 1)) (m % 2 ^ k) (2 ^ k) = true
    · have := hinc.mp hi
      rw [hi, Bool.toNat_true]
      omega
    · have := mt hinc.mpr hi
      rw [Bool.not_eq_true] at hi
      rw [hi, Bool.toNat_false]
      omega

end Local

/-- A second rounding by `t` bits after one by `s` bits is wrong: the first one moves the number
to a middle between two points of the coarser grid, and the tie is then broken to the wrong side. -/
def RoundsTwice (mode : Mode) (m s t : ℕ) : Prop :=
  let u := 2 ^ s
  let unit := 2 ^ (s + t)
  let d := m % unit
  match mode with
  | .rne =>
    (2 * d < unit ∧ unit ≤ 2 * d + u ∧ m / unit % 2 = 1 ∧ (t = 1 → unit < 2 * d + u)) ∨
      (unit < 2 * d ∧ 2 * d ≤ unit + u ∧ m / unit % 2 = 0 ∧ (t = 1 → 2 * d < unit + u))
  | .rmm => 2 * d < unit ∧ unit ≤ 2 * d + u
  | _ => False

instance (mode : Mode) (m s t : ℕ) : Decidable (RoundsTwice mode m s t) := by
  unfold RoundsTwice
  cases mode <;> infer_instance

section Twice

variable {u h b r : ℕ}

theorem compare_half (hr : r < u) :
    (2 * (u * h) ≤ 2 * (u * b + r) ↔ h ≤ b) ∧
    (2 * (u * h) < 2 * (u * b + r) ↔ h < b ∨ (h = b ∧ 0 < r)) ∧
      (2 * (u * h) ≤ 2 * (u * b + r) + u ↔ h ≤ b ∨ (h = b + 1 ∧ u ≤ 2 * r)) ∧
      (2 * (u * h) < 2 * (u * b + r) + u ↔ h ≤ b ∨ (h = b + 1 ∧ u < 2 * r)) ∧
      (2 * (u * b + r) ≤ 2 * (u * h) + u ↔ b < h ∨ (b = h ∧ 2 * r ≤ u)) ∧
      (2 * (u * b + r) < 2 * (u * h) + u ↔ b < h ∨ (b = h ∧ 2 * r < u)) := by
  rcases lt_trichotomy b h with hlt | heq | hgt
  · obtain ⟨d, rfl⟩ := Nat.exists_eq_add_of_lt hlt
    have hprod : u * (b + d + 1) = u * b + u * d + u := by ring
    rcases Nat.eq_zero_or_pos d with rfl | hd
    · rw [hprod]
      omega
    · have hle : u ≤ u * d := Nat.le_mul_of_pos_right u hd
      omega
  · subst heq
    omega
  · obtain ⟨d, rfl⟩ := Nat.exists_eq_add_of_lt hgt
    have hprod : u * (h + d + 1) = u * h + u * d + u := by ring
    omega

theorem eq_half_iff (hr : r < u) : 2 * (u * b + r) = 2 * (u * h) ↔ b = h ∧ r = 0 := by
  obtain ⟨hle, hlt, -⟩ := compare_half (h := h) (b := b) hr
  omega

theorem toNat_cases {x : Bool} {P : Prop} (h : x = true ↔ P) :
    (P ∧ x.toNat = 1) ∨ (¬ P ∧ x.toNat = 0) := by
  cases x with
  | false => exact .inr ⟨fun hp => absurd (h.mpr hp) (by simp), rfl⟩
  | true => exact .inl ⟨h.mp rfl, rfl⟩

theorem carry_split {q x : ℕ} (hb : b < 2 * h) (hx : x ≤ 1) :
    (b + x < 2 * h ∧ (2 * h * q + b + x) / (2 * h) = q ∧ (2 * h * q + b + x) % (2 * h) =
      b + x) ∨
      (b + x = 2 * h ∧ (2 * h * q + b + x) / (2 * h) = q + 1 ∧ (2 * h * q + b + x) % (2 * h) =
        0) := by
  rcases lt_or_ge (b + x) (2 * h) with hlt | hge
  · left
    rw [add_assoc, Nat.mul_add_div (by omega), Nat.mul_add_mod, div_eq_of_lt hlt, mod_eq_of_lt hlt]
    exact ⟨hlt, rfl, rfl⟩
  · right
    have heq : b + x = 2 * h := by omega
    rw [add_assoc, heq, Nat.mul_add_div (by omega), Nat.mul_add_mod, Nat.div_self (by omega),
      Nat.mod_self]
    exact ⟨rfl, rfl, rfl⟩

theorem twice_rne {q : ℕ} (neg : Bool) (hr : r < u) (hb : b < 2 * h)
    (hpar : h = 1 ∨ h % 2 = 0) :
    let x := (increments .rne neg (decide ((2 * h * q + b) % 2 = 1)) r u).toNat
    let k := 2 * h * q + b + x
    k / (2 * h) + (increments .rne neg (decide (k / (2 * h) % 2 = 1)) (k % (2 * h)) (2 * h)).toNat =
        q + (increments .rne neg (decide (q % 2 = 1)) (u * b + r) (2 * (u * h))).toNat ↔
      ¬ ((2 * (u * b + r) < 2 * (u * h) ∧ 2 * (u * h) ≤ 2 * (u * b + r) + u ∧ q % 2 = 1 ∧
          (h = 1 → 2 * (u * h) < 2 * (u * b + r) + u)) ∨
        (2 * (u * h) < 2 * (u * b + r) ∧ 2 * (u * b + r) ≤ 2 * (u * h) + u ∧ q % 2 = 0 ∧
          (h = 1 → 2 * (u * b + r) < 2 * (u * h) + u))) := by
  intro x k
  obtain ⟨c1, c2, c3, c4, c5, c6⟩ := compare_half (h := h) (b := b) hr
  have hM : (2 * h * q + b) % 2 = b % 2 := by
    rw [mul_assoc, Nat.mul_add_mod]
  have hx := toNat_cases (increments_rne neg (decide ((2 * h * q + b) % 2 = 1)) r u)
  have hk := toNat_cases (increments_rne neg (decide (k / (2 * h) % 2 = 1)) (k % (2 * h)) (2 * h))
  have hq := toNat_cases (increments_rne neg (decide (q % 2 = 1)) (u * b + r) (2 * (u * h)))
  simp only [decide_eq_true_eq] at hk hq
  change _ ∧ x = 1 ∨ _ ∧ x = 0 at hx
  rw [decide_eq_true_eq, hM] at hx
  have hxle : x ≤ 1 := Bool.toNat_le _
  have hsplit : (b + x < 2 * h ∧ k / (2 * h) = q ∧ k % (2 * h) = b + x) ∨
      (b + x = 2 * h ∧ k / (2 * h) = q + 1 ∧ k % (2 * h) = 0) := carry_split hb hxle
  rw [c2, eq_half_iff hr] at hq
  rw [← not_le, c1, c2, c3, c4, c5, c6]
  clear_value k x
  generalize k / (2 * h) = kq at hsplit hk ⊢
  generalize k % (2 * h) = kr at hsplit hk ⊢
  generalize (increments .rne neg (decide (kq % 2 = 1)) kr (2 * h)).toNat = y at hk ⊢
  generalize (increments .rne neg (decide (q % 2 = 1)) (u * b + r) (2 * (u * h))).toNat =
    z at hq ⊢
  rcases hsplit with ⟨hlt, rfl, rfl⟩ | ⟨hcarry, rfl, rfl⟩ <;>
    rcases hx with ⟨hup, rfl⟩ |
    ⟨hup, rfl⟩ <;>
    rcases hk with ⟨hk, rfl⟩ | ⟨hk, rfl⟩ <;> omega

theorem twice_rmm {q : ℕ} (neg odd odd' odd'' : Bool) (hr : r < u) (hb : b < 2 * h) :
    let k := 2 * h * q + b + (increments .rmm neg odd r u).toNat
    k / (2 * h) + (increments .rmm neg odd' (k % (2 * h)) (2 * h)).toNat =
        q + (increments .rmm neg odd'' (u * b + r) (2 * (u * h))).toNat ↔
      ¬ (2 * (u * b + r) < 2 * (u * h) ∧ 2 * (u * h) ≤ 2 * (u * b + r) + u) := by
  intro k
  obtain ⟨c1, -, c3, -⟩ := compare_half (h := h) (b := b) hr
  have hx := toNat_cases (increments_rmm neg odd r u)
  have hk := toNat_cases (increments_rmm neg odd' (k % (2 * h)) (2 * h))
  have hq := toNat_cases (increments_rmm neg odd'' (u * b + r) (2 * (u * h)))
  have hsplit := carry_split (q := q) hb (Bool.toNat_le (increments .rmm neg odd r u))
  rcases hsplit with ⟨hlt, hkq, hkr⟩ | ⟨hx1, hkq, hkr⟩
  all_goals
    rw [hkr] at hk ⊢
    rw [hkq]
    omega

theorem twice_away {q : ℕ} (hr : r < u) (hb : b < 2 * h) :
    let k := 2 * h * q + b + (decide (r ≠ 0)).toNat
    k / (2 * h) + (decide (k % (2 * h) ≠ 0)).toNat = q + (decide (u * b + r ≠ 0)).toNat := by
  intro k
  have hx := toNat_cases (x := decide (r ≠ 0)) decide_eq_true_iff
  have hk := toNat_cases (x := decide (k % (2 * h) ≠ 0)) decide_eq_true_iff
  have hq := toNat_cases (x := decide (u * b + r ≠ 0)) decide_eq_true_iff
  have hzero : u * b = 0 ↔ b = 0 := by simp [show u ≠ 0 by omega]
  have hsplit := carry_split (q := q) hb (Bool.toNat_le (decide (r ≠ 0)))
  rcases hsplit with ⟨hlt, hkq, hkr⟩ | ⟨hx1, hkq, hkr⟩
  all_goals
    rw [hkr] at hk ⊢
    rw [hkq]
    omega

end Twice

theorem roundShift_twice_iff (mode : Mode) (neg : Bool) (m s t : ℕ) (ht : 0 < t) :
    roundShift mode neg (roundShift mode neg m s) t = roundShift mode neg m (s + t) ↔
      ¬ RoundsTwice mode m s t := by
  have hT : 2 ^ t = 2 * 2 ^ (t - 1) := (mul_pow_sub_one (by omega) 2).symm
  have hU : 2 ^ (s + t) = 2 * (2 ^ s * 2 ^ (t - 1)) := by
    rw [pow_add, hT]
    ring
  have hpar : 2 ^ (t - 1) = 1 ∨ 2 ^ (t - 1) % 2 = 0 := by
    rcases Nat.eq_zero_or_pos (t - 1) with h0 | hpos
    · left
      rw [h0, pow_zero]
    · right
      rw [show t - 1 = t - 2 + 1 by omega, pow_succ, mul_mod_left]
  have hone : t = 1 ↔ 2 ^ (t - 1) = 1 := by
    rw [Nat.pow_eq_one]
    omega
  have hdiv : m / 2 ^ (s + t) = m / 2 ^ s / 2 ^ t := by rw [pow_add, Nat.div_div_eq_div_mul]
  have hmod : m % 2 ^ (s + t) = 2 ^ s * (m / 2 ^ s % 2 ^ t) + m % 2 ^ s := by
    rw [pow_add, mod_mul, add_comm]
  have hM : 2 ^ t * (m / 2 ^ (s + t)) + m / 2 ^ s % 2 ^ t = m / 2 ^ s := by
    rw [hdiv]
    exact div_add_mod _ _
  have hr : m % 2 ^ s < 2 ^ s := Nat.mod_lt _ (Nat.two_pow_pos s)
  have hb : m / 2 ^ s % 2 ^ t < 2 * 2 ^ (t - 1) := hT ▸ Nat.mod_lt _ (Nat.two_pow_pos t)
  cases mode with
  | rtz => simp [roundShift, increments, RoundsTwice, hdiv]
  | rne =>
    have h := twice_rne neg (q := m / 2 ^ s / 2 ^ t) hr hb hpar
    simp only [← hT, ← hU, ← hdiv, ← hmod, ← hone, hM] at h
    exact h
  | rmm =>
    have h := twice_rmm (q := m / 2 ^ s / 2 ^ t) neg (decide (m / 2 ^ s % 2 = 1))
      (decide (roundShift .rmm neg m s / 2 ^ t % 2 = 1)) (decide (m / 2 ^ (s + t) % 2 = 1)) hr hb
    simp only [← hT, ← hU, ← hdiv, ← hmod, hM] at h
    exact h
  | rdn | rup =>
    have h := twice_away (q := m / 2 ^ s / 2 ^ t) hr hb
    simp only [← hT, ← hdiv, ← hmod, hM] at h
    cases neg <;> first
      | simpa [roundShift, increments, RoundsTwice] using h
      | simp [roundShift, increments, RoundsTwice, hdiv]

/-- Rounding a number of `b` bits by `s` of them gives the next power of two. -/
def CarriesOver (mode : Mode) (neg : Bool) (m s b : ℕ) : Prop :=
  match mode with
  | .rne => 2 * 2 ^ b ≤ 2 * m + 2 ^ s
  | .rmm => 2 * 2 ^ b ≤ 2 * m + 2 ^ s
  | .rdn => neg = true ∧ 2 ^ b < m + 2 ^ s
  | .rup => neg = false ∧ 2 ^ b < m + 2 ^ s
  | .rtz => False

instance (mode : Mode) (neg : Bool) (m s b : ℕ) : Decidable (CarriesOver mode neg m s b) := by
  unfold CarriesOver
  cases mode <;> infer_instance

theorem roundShift_carry_iff (mode : Mode) (neg : Bool) {m s b : ℕ} (hs : s < b)
    (hm : m < 2 ^ b) : roundShift mode neg m s = 2 ^ (b - s) ↔ CarriesOver mode neg m s b := by
  have hb : 2 ^ b = 2 ^ s * 2 ^ (b - s) := (pow_mul_pow_sub 2 hs.le).symm
  have htop : 2 ^ (b - s) = 2 * 2 ^ (b - s - 1) := (mul_pow_sub_one (by omega) 2).symm
  have hlt : m / 2 ^ s < 2 ^ (b - s) := by
    rw [Nat.div_lt_iff_lt_mul (Nat.two_pow_pos s), mul_comm, ← hb]
    exact hm
  have hdm := div_add_mod m (2 ^ s)
  -- the kept bits are all ones, and so odd, or at least two below the power
  have hplace : (m / 2 ^ s + 1 = 2 ^ (b - s) ∧ 2 ^ b = 2 ^ s * (m / 2 ^ s) + 2 ^ s) ∨
      (m / 2 ^ s + 2 ≤ 2 ^ (b - s) ∧ 2 ^ s * (m / 2 ^ s) + 2 * 2 ^ s ≤ 2 ^ b) := by
    rcases lt_or_eq_of_le (show m / 2 ^ s + 1 ≤ 2 ^ (b - s) from hlt) with h | h
    · right
      refine ⟨h, ?_⟩
      rw [hb]
      calc 2 ^ s * (m / 2 ^ s) + 2 * 2 ^ s = 2 ^ s * (m / 2 ^ s + 2) := by ring
        _ ≤ 2 ^ s * 2 ^ (b - s) := mul_le_mul_left _ h
    · left
      refine ⟨h, ?_⟩
      rw [hb, ← h]
      ring
  cases mode with
  | rne =>
    have hi := toNat_cases (increments_rne neg (decide (m / 2 ^ s % 2 = 1)) (m % 2 ^ s) (2 ^ s))
    simp only [decide_eq_true_eq] at hi
    simp only [roundShift, CarriesOver]
    omega
  | rmm =>
    have hi := toNat_cases (increments_rmm neg (decide (m / 2 ^ s % 2 = 1)) (m % 2 ^ s) (2 ^ s))
    simp only [roundShift, CarriesOver]
    omega
  | rtz =>
    simp only [roundShift, CarriesOver, increments, Bool.toNat_false, iff_false]
    omega
  | rdn | rup =>
    have hi := toNat_cases (x := decide (m % 2 ^ s ≠ 0)) decide_eq_true_iff
    cases neg
    all_goals
      simp only [roundShift, CarriesOver, increments, Bool.not_true, Bool.not_false, Bool.false_and,
        Bool.true_and, Bool.toNat_false, reduceCtorEq, false_and, true_and, iff_false]
      omega

end DyadicRounding

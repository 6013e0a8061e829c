import VortexGpu.CustomFloat

/-!
# What the float conversions compute

The encoder as rounding by shifts. Its result is the correct rounding of the value exactly when
the second rounding does not undo what the first one has lost, and the shift to the subnormal
grid is one that a 64-bit word has.
-/

namespace VortexGpu.SoftFloat
open Nat (mod_one pow_le_pow_right shiftLeft_eq sub_eq_zero_of_le two_pow_pos)
open Nat DyadicRounding FloatFormat

/-- The rounding direction of an `frm` field; the reserved ones act as the first. -/
def modeOf (frm : ℕ) : Mode :=
  match frm with
  | 1 => .rtz
  | 2 => .rdn
  | 3 => .rup
  | 4 => .rmm
  | _ => .rne

theorem toInf_eq (frm : ℕ) (sign : Bool) : toInf frm sign = overflowsToInf (modeOf frm) sign := by
  match frm with
  | 0 => rfl
  | 1 => rfl
  | 2 => rfl
  | 3 => rfl
  | 4 => rfl
  | n + 5 => simp [toInf, modeOf, overflowsToInf]

theorem two_pow_pred {E : ℕ} (hE : 1 ≤ E) : 2 ^ E = 2 * 2 ^ (E - 1) :=
  (mul_pow_sub_one (by omega) 2).symm

section Grs

variable {main sh : ℕ}

theorem guard_eq (main : ℕ) (hsh : 1 ≤ sh) :
    ((main >>> (sh - 1)) % 2 == 1) = decide (2 ^ sh ≤ 2 * (main % 2 ^ sh)) := by
  have hpow := two_pow_pred hsh
  have hdiv : main / 2 ^ (sh - 1) % 2 = main % 2 ^ sh / 2 ^ (sh - 1) := by
    rw [hpow, mul_comm 2, mod_mul_right_div_self]
  have hcases : main % 2 ^ sh / 2 ^ (sh - 1) = 1 ↔ 2 ^ sh ≤ 2 * (main % 2 ^ sh) := by
    rw [Nat.div_eq_iff (two_pow_pos _)]
    omega
  rw [shiftRight_eq_div_pow, hdiv, Bool.beq_eq_decide_eq, decide_eq_decide]
  exact hcases

/-- A discarded part that stands for the remainder: only whether its low bits are zero is read. -/
structure StandsFor (disc main sh : ℕ) : Prop where
  zero : disc = 0 ↔ main % 2 ^ sh = 0
  sticky : 2 ≤ sh → (disc % 2 ^ (sh - 1) = 0 ↔ main % 2 ^ (sh - 1) = 0)

theorem StandsFor.remainder (main sh : ℕ) : StandsFor (main % 2 ^ sh) main sh where
  zero := Iff.rfl
  sticky _ := by rw [mod_mod_of_dvd _ (pow_dvd_pow 2 (by omega))]

theorem StandsFor.one (hm : main ≠ 0) (hlt : main < 2 ^ (sh - 1)) (hsh : 2 ≤ sh) :
    StandsFor 1 main sh where
  zero := by
    have hle : 2 ^ (sh - 1) ≤ 2 ^ sh := pow_le_pow_right (by norm_num) (by omega)
    rw [mod_eq_of_lt (by omega)]
    simp [hm]
  sticky _ := by
    rw [mod_eq_of_lt hlt, mod_eq_of_lt (by omega)]
    simp [hm]

theorem roundb_sticky {disc : ℕ} (h : StandsFor disc main sh) :
    ((decide (2 ≤ sh) && (main >>> (sh - 2)) % 2 == 1) ||
      (decide (2 ≤ sh) && disc &&& (1 <<< (sh - 1) - 1) != 0)) =
      decide (2 ≤ sh ∧ main % 2 ^ (sh - 1) ≠ 0) := by
  by_cases hsh : 2 ≤ sh
  · have hst := h.sticky hsh
    rw [one_shiftLeft, and_two_pow_sub_one_eq_mod, show sh - 2 = sh - 1 - 1 by omega,
      guard_eq main (show 1 ≤ sh - 1 by omega)]
    rw [Bool.eq_iff_iff]
    simp only [hsh, decide_true, Bool.true_and, Bool.or_eq_true, decide_eq_true_eq, bne_iff_ne,
      ne_eq, true_and, hst]
    omega
  · simp [hsh]

theorem grsIncrement_eq (frm : ℕ) (sign : Bool) (hsh : 1 ≤ sh) {disc : ℕ}
    (h : StandsFor disc main sh) : grsIncrement frm sign ((main >>> sh) % 2 == 1) main disc sh =
      increments (modeOf frm) sign (decide (main / 2 ^ sh % 2 = 1)) (main % 2 ^ sh) (2 ^ sh) := by
  have hdisc : (disc != 0) = decide (main % 2 ^ sh ≠ 0) := by
    rw [Bool.eq_iff_iff]
    simp [h.zero]
  have hguard := guard_eq main hsh
  have hrs := roundb_sticky h
  have hpow := two_pow_pred hsh
  have hmod : main % 2 ^ sh = main % 2 ^ (sh - 1) + 2 ^ (sh - 1) * (main / 2 ^ (sh - 1) % 2) := by
    rw [hpow, mul_comm 2, mod_mul]
  have hone : sh = 1 → main % 2 ^ (sh - 1) = 0 := by
    rintro rfl
    simp [mod_one]
  have hrne : grsIncrement 0 sign ((main >>> sh) % 2 == 1) main disc sh =
      increments .rne sign (decide (main / 2 ^ sh % 2 = 1)) (main % 2 ^ sh) (2 ^ sh) := by
    simp only [grsIncrement, hrs, hguard, hsh, decide_true, Bool.true_and]
    rw [Bool.eq_iff_iff, increments_rne]
    simp only [Bool.and_eq_true, Bool.or_eq_true, decide_eq_true_eq, shiftRight_eq_div_pow,
      beq_iff_eq]
    rcases mod_two_eq_zero_or_one (main / 2 ^ (sh - 1)) with hb | hb <;> rw [hb] at hmod <;> omega
  match frm with
  | 0 => exact hrne
  | 1 => rfl
  | 2 => simp only [grsIncrement, hdisc, modeOf, increments]
  | 3 => simp only [grsIncrement, hdisc, modeOf, increments]
  | 4 => simp only [grsIncrement, hguard, hsh, decide_true, Bool.true_and, modeOf, increments]
  | _ + 5 => exact hrne

end Grs

section Roundings

variable {p m : ℕ} {e : ℤ}

def kept (frm : ℕ) (neg : Bool) (p m : ℕ) : ℕ :=
  roundShift (modeOf frm) neg (m * 2 ^ (p - 23)) (23 - p)

theorem scaled_bounds (hm : 2 ^ 23 ≤ m ∧ m < 2 ^ 24) :
    2 ^ p ≤ m * 2 ^ (p - 23) / 2 ^ (23 - p) ∧
    m * 2 ^ (p - 23) / 2 ^ (23 - p) < 2 ^ (p + 1) := by
  rw [Nat.le_div_iff_mul_le (two_pow_pos _), Nat.div_lt_iff_lt_mul (two_pow_pos _)]
  rcases le_total p 23 with h | h
  · rw [sub_eq_zero_of_le h, pow_zero, mul_one, ← pow_add, ← pow_add,
      show p + (23 - p) = 23 by omega, show p + 1 + (23 - p) = 24 by omega]
    exact hm
  rw [sub_eq_zero_of_le h, pow_zero, mul_one, mul_one]
  have h1 : 2 ^ p = 2 ^ 23 * 2 ^ (p - 23) := (pow_mul_pow_sub 2 h).symm
  rw [pow_succ, h1, mul_right_comm]
  exact ⟨mul_le_mul_right _ hm.1, mul_lt_mul_of_pos_right hm.2 (two_pow_pos _)⟩

theorem kept_bounds (frm : ℕ) (neg : Bool) (hm : 2 ^ 23 ≤ m ∧ m < 2 ^ 24) :
    2 ^ p ≤ kept frm neg p m ∧ kept frm neg p m ≤ 2 ^ (p + 1) := by
  obtain ⟨hlo, hhi⟩ := scaled_bounds (p := p) hm
  have h1 := le_roundShift (modeOf frm) neg (m * 2 ^ (p - 23)) (23 - p)
  have h2 := roundShift_le (modeOf frm) neg (m * 2 ^ (p - 23)) (23 - p)
  rw [kept]
  omega

theorem scaled_mod {m : ℕ} : m * 2 ^ (p - 23) % 2 ^ (23 - p) = 0 ↔ m % 2 ^ (23 - p) = 0 := by
  rcases le_total p 23 with h | h
  · rw [sub_eq_zero_of_le h, pow_zero, mul_one]
  · simp [sub_eq_zero_of_le h, mod_one]

theorem kept_exact (frm : ℕ) (neg : Bool) (h : m % 2 ^ (23 - p) = 0) :
    kept frm neg p m = m * 2 ^ (p - 23) / 2 ^ (23 - p) := roundShift_exact _ _ (scaled_mod.mpr h)

theorem kept_carry (frm : ℕ) (neg : Bool) (hm : 2 ^ 23 ≤ m ∧ m < 2 ^ 24)
    (h : kept frm neg p m = 2 ^ (p + 1)) : m % 2 ^ (23 - p) ≠ 0 := by
  intro h0
  have hlt := (scaled_bounds (p := p) hm).2
  rw [kept_exact frm neg h0] at h
  omega

theorem inexact_iff (frm : ℕ) (neg : Bool) (t : ℕ) :
    (m % 2 ^ (23 - p) ≠ 0 ∨ kept frm neg p m % 2 ^ t ≠ 0) ↔
    m * 2 ^ (p - 23) % 2 ^ (23 - p + t) ≠ 0 := by
  have hmod : m * 2 ^ (p - 23) % 2 ^ (23 - p + t) = m * 2 ^ (p - 23) % 2 ^ (23 - p) +
      2 ^ (23 - p) * (m * 2 ^ (p - 23) / 2 ^ (23 - p) % 2 ^ t) := by
    rw [pow_add, mod_mul]
  by_cases h0 : m % 2 ^ (23 - p) = 0
  · rw [hmod, scaled_mod.mpr h0, kept_exact frm neg h0]
    simp [h0]
  · have hne : m * 2 ^ (p - 23) % 2 ^ (23 - p) ≠ 0 := mt scaled_mod.mp h0
    omega

theorem reducePrecision_eq (frm : ℕ) (neg : Bool) (hm : 2 ^ 23 ≤ m ∧ m < 2 ^ 24) :
    reducePrecision frm neg p m e =
      if kept frm neg p m = 2 ^ (p + 1) then (2 ^ p, e + 1, decide (m % 2 ^ (23 - p) ≠ 0))
      else (kept frm neg p m, e, decide (m % 2 ^ (23 - p) ≠ 0)) := by
  obtain ⟨hlo, hhi⟩ := scaled_bounds (p := p) hm
  by_cases hp : p < 23
  · have hgrs := grsIncrement_eq frm neg (show 1 ≤ 23 - p by omega) (.remainder m (23 - p))
    have hbne : (m % 2 ^ (23 - p) != 0) = decide (m % 2 ^ (23 - p) ≠ 0) := by
      rw [Bool.eq_iff_iff]
      simp
    rw [sub_eq_zero_of_le hp.le, pow_zero, mul_one] at hlo hhi
    have hkept : kept frm neg p m = m / 2 ^ (23 - p) + (increments (modeOf frm) neg
        (decide (m / 2 ^ (23 - p) % 2 = 1)) (m % 2 ^ (23 - p)) (2 ^ (23 - p))).toNat := by
      rw [kept, sub_eq_zero_of_le hp.le, pow_zero, mul_one, roundShift]
    simp only [reducePrecision, if_pos hp, one_shiftLeft, and_two_pow_sub_one_eq_mod, hgrs, hbne]
    rw [hkept, shiftRight_eq_div_pow]
    cases increments (modeOf frm) neg (decide (m / 2 ^ (23 - p) % 2 = 1)) (m % 2 ^ (23 - p))
      (2 ^ (23 - p)) with
    | false =>
      rw [if_neg (by simp), Bool.toNat_false, if_neg (by omega)]
      rfl
    | true =>
      rw [if_pos rfl, Bool.toNat_true]
      split
      · rename_i h
        rw [h, Nat.shiftRight_one, pow_succ, Nat.mul_div_cancel _ (by norm_num)]
      · rfl
  · have hle : 23 ≤ p := by omega
    have hkept : kept frm neg p m = m * 2 ^ (p - 23) := by
      rw [kept, sub_eq_zero_of_le hle, roundShift_zero]
    rw [sub_eq_zero_of_le hle, pow_zero, Nat.div_one] at hhi
    rw [reducePrecision, if_neg hp, hkept, if_neg (by omega), shiftLeft_eq, sub_eq_zero_of_le hle]
    simp [mod_one]

theorem roundSubnormal_eq (frm : ℕ) (neg : Bool) {main t : ℕ} (hp : p ≠ 0) (hm : main ≠ 0)
    (hlt : main < 2 ^ 63) (ht : 1 ≤ t) : (64 < t → roundSubnormal frm neg p main t = none) ∧
      (t ≤ 64 → ∃ disc,
        roundSubnormal frm neg p main t = some (roundShift (modeOf frm) neg main t, disc) ∧
        (disc = 0 ↔ main % 2 ^ t = 0)) := by
  refine ⟨fun h => ?_, fun h => ?_⟩
  · simp [roundSubnormal, h]
  have hnot : ¬ 64 < t := by omega
  rcases lt_or_eq_of_le h with hlt64 | rfl
  · have hst := StandsFor.remainder main t
    have hgrs := grsIncrement_eq frm neg ht hst
    refine ⟨main % 2 ^ t, ?_, Iff.rfl⟩
    simp only [roundSubnormal, if_neg hnot, if_pos hlt64, one_shiftLeft,
      and_two_pow_sub_one_eq_mod, hp,
      ne_eq, not_false_eq_true, decide_true, Bool.true_and, hgrs, roundShift]
    rw [shiftRight_eq_div_pow]
  · have hst : StandsFor 1 main 64 := .one hm (by norm_num; omega) (by norm_num)
    have hgrs := grsIncrement_eq frm neg (by norm_num) hst
    have hzero : main / 2 ^ 64 = 0 := div_eq_of_lt (by omega)
    refine ⟨1, ?_, hst.zero⟩
    rw [shiftRight_eq_div_pow, hzero] at hgrs
    simp only [roundSubnormal, lt_irrefl, ite_false, hm, ne_eq, not_false_eq_true, ite_true, hp,
      decide_true, Bool.true_and, roundShift, hzero]
    rw [hgrs]

end Roundings

theorem packCustom_eq {E p exp mant : ℕ} (neg : Bool) (hp : p ≠ 0) (hexp : exp < 2 ^ E)
    (hmant : mant < 2 ^ p) :
    packCustom E p neg.toNat exp mant = pack E p neg (exp * 2 ^ p + mant) := by
  have hlow : exp <<< p + mant < 2 ^ (E + p) := by
    rw [shiftLeft_eq, pow_add]
    calc exp * 2 ^ p + mant < exp * 2 ^ p + 2 ^ p := by omega
      _ = (exp + 1) * 2 ^ p := by ring
      _ ≤ 2 ^ E * 2 ^ p := mul_le_mul_right _ hexp
  simp only [packCustom, hp, ne_eq, not_false_eq_true, ite_true, one_shiftLeft,
    and_two_pow_sub_one_eq_mod, mod_eq_of_lt hmant]
  rw [Nat.or_assoc, ← Nat.shiftLeft_add_eq_or_of_lt hmant, ← Nat.shiftLeft_add_eq_or_of_lt hlow,
    shiftLeft_eq, shiftLeft_eq, pack]

section Source

def f32Exponent (i : ℕ) : ℤ := leadExponent 8 23 i

def f32Significand (i : ℕ) : ℕ := significand 23 i

variable {i : ℕ}

theorem emin_f32 : emin 8 = -126 := by norm_num [emin]

theorem normalizeF32_eq (hi : 0 < i) :
    normalizeF32 (i / 2 ^ 23) (i % 2 ^ 23) = (f32Significand i, f32Exponent i) := by
  have hemin := emin_f32
  by_cases hlt : i < 2 ^ 23
  · have hlog := log2_lt_of_lt hi hlt
    have hexp : i / 2 ^ 23 = 0 := div_eq_of_lt hlt
    have hsh : clz32 i - 8 = 23 - log2 i := by
      rw [clz32]
      omega
    simp only [normalizeF32, hexp, ne_eq, not_true_eq_false, ite_false, f32Significand, f32Exponent,
      significand, leadExponent, if_pos hlt, mod_eq_of_lt hlt, hsh, shiftLeft_eq]
    congr 1
    omega
  · have hexp : i / 2 ^ 23 ≠ 0 := by
      omega
    have hsig : i % 2 ^ 23 < 2 ^ 23 := Nat.mod_lt _ (by norm_num)
    have hor : (1 <<< 23) ||| (i % 2 ^ 23) = 2 ^ 23 + i % 2 ^ 23 := by
      rw [← Nat.shiftLeft_add_eq_or_of_lt hsig, one_shiftLeft]
    simp only [normalizeF32, hexp, ne_eq, not_false_eq_true, ite_true, f32Significand, f32Exponent,
      significand, leadExponent, if_neg hlt, hor]
    congr 1
    omega

theorem f32Significand_bounds (hi : 0 < i) :
    2 ^ 23 ≤ f32Significand i ∧ f32Significand i < 2 ^ 24 :=
  significand_bounds hi

theorem magnitude_f32 (hi : 0 < i) :
    magnitude 8 23 i = f32Significand i * 2 ^ (f32Exponent i - 23) :=
  magnitude_eq hi

end Source

section Encoder

variable {E p i : ℕ}

theorem toNat_bne (neg : Bool) : (neg.toNat != 0) = neg := by cases neg <;> rfl

theorem emin_eq (E : ℕ) : emin E = 2 - ((2 ^ (E - 1) : ℕ) : ℤ) := rfl

theorem reducePrecision_cases (frm : ℕ) (neg : Bool) {m : ℕ} (hm : 2 ^ 23 ≤ m ∧ m < 2 ^ 24)
    (e : ℤ) :
    ∃ m' e', reducePrecision frm neg p m e = (m', e', decide (m % 2 ^ (23 - p) ≠ 0)) ∧
    2 ^ p ≤ m' ∧ m' < 2 ^ (p + 1) ∧
      ((e' = e ∧ m' = kept frm neg p m) ∨
        (e' = e + 1 ∧ m' = 2 ^ p ∧ kept frm neg p m = 2 ^ (p + 1))) := by
  have hpos := two_pow_pos p
  obtain ⟨hlo, hhi⟩ := kept_bounds (p := p) frm neg hm
  rw [reducePrecision_eq frm neg hm]
  by_cases hcarry : kept frm neg p m = 2 ^ (p + 1)
  · exact ⟨2 ^ p, e + 1, by rw [if_pos hcarry], le_refl _, by omega,
      .inr ⟨rfl, rfl, hcarry⟩⟩
  · exact ⟨_, e, by rw [if_neg hcarry], hlo, by omega, .inl ⟨rfl, rfl⟩⟩

theorem cvtFinite_normal (frm : ℕ) (neg : Bool) (hE : 1 ≤ E) (hp : p ≠ 0) (hi : 0 < i)
    (he : emin E ≤ f32Exponent i) :
    let r := (f32Exponent i - emin E).toNat * 2 ^ p + kept frm neg p (f32Significand i)
    ∃ flags, cvtFinite neg.toNat (i / 2 ^ 23) (i % 2 ^ 23) E p frm =
        some (pack E p neg (clip E p (modeOf frm) neg r), flags) ∧
      (flags.nx = true ↔ infIndex E p ≤ r ∨ f32Significand i % 2 ^ (23 - p) ≠ 0) := by
  intro r
  obtain ⟨m', e', hred, hmlo, hmhi, hcases⟩ :=
    reducePrecision_cases (p := p) frm neg (f32Significand_bounds hi)
    (f32Exponent i)
  have hsign := toNat_bne neg
  have hpow := two_pow_pred hE
  have hpp : 2 ^ (p + 1) = 2 * 2 ^ p := by ring
  have hbias : (2 : ℤ) ^ (E - 1) = (2 ^ (E - 1) : ℕ) := rfl
  have hemin := emin_eq E
  have hr : r = (e' - emin E).toNat * 2 ^ p + m' := by
    rcases hcases with ⟨rfl, rfl⟩ | ⟨rfl, rfl, hk⟩
    · rfl
    · rw [show (f32Exponent i + 1 - emin E).toNat = (f32Exponent i - emin E).toNat + 1 by omega,
        succ_mul]
      change _ + kept _ _ _ _ = _
      rw [hk, hpp]
      ring
  have hEpos := two_pow_pos (E - 1)
  clear_value r
  simp only [cvtFinite, normalizeF32_eq hi, hsign, hred, toInf_eq, hbias]
  by_cases hover : ((2 ^ (E - 1) : ℕ) : ℤ) - 1 < e'
  · have hinf : infIndex E p ≤ r := by
      have hj : 2 ^ E - 2 ≤ (e' - emin E).toNat := by omega
      have hmul := mul_le_mul_right (2 ^ p) hj
      rw [infIndex, hr, show 2 ^ E - 1 = 2 ^ E - 2 + 1 by omega, succ_mul]
      omega
    rw [if_pos hover, clip_of_le hinf]
    refine ⟨_, congrArg some (Prod.ext ?_ rfl), by simp [hinf]⟩
    have hmax : (2 ^ E - 1) * 2 ^ p = (2 ^ E - 1 - 1) * 2 ^ p + 2 ^ p := by
      rw [← succ_mul]
      congr 1
      omega
    simp only [one_shiftLeft, hp, ne_eq, not_false_eq_true, ite_true]
    rw [packCustom_eq neg hp (by omega) (by omega), packCustom_eq neg hp (by omega) (by omega),
      infIndex, add_zero]
    split
    · rfl
    · congr 1
      omega
  · have hfin : r < infIndex E p := by
      have hj : (e' - emin E).toNat + 3 ≤ 2 ^ E := by omega
      have hmul := mul_le_mul_right (2 ^ p) hj
      rw [infIndex, hr, Nat.sub_mul]
      rw [add_mul] at hmul
      omega
    rw [if_neg hover, if_pos (by omega), clip_of_lt hfin]
    refine ⟨_, congrArg some (Prod.ext ?_ rfl), by simp [hfin]⟩
    have hexp : (e' + (((2 ^ (E - 1) : ℕ) : ℤ) - 1)).toNat = (e' - emin E).toNat + 1 := by omega
    have hmant : m' % 2 ^ p = m' - 2 ^ p := by
      rw [mod_eq_sub_mod hmlo, mod_eq_of_lt (by omega)]
    simp only [one_shiftLeft, hp, ne_eq, not_false_eq_true, ite_true, and_two_pow_sub_one_eq_mod,
      hexp, hmant]
    rw [packCustom_eq neg hp (by omega) (by omega), hr, succ_mul]
    congr 1
    omega

def subnormalShift (frm : ℕ) (neg : Bool) (E p i : ℕ) : ℕ :=
  (emin E - f32Exponent i).toNat - (decide (kept frm neg p (f32Significand i) = 2 ^ (p + 1))).toNat

theorem packCustom_subnormal (neg : Bool) (hE : 1 ≤ E) (hp : p ≠ 0) {x : ℕ}
    (hx : x ≤ 2 ^ p) :
    (if p ≠ 0 ∧ x = 1 <<< p then packCustom E p neg.toNat 1 0
      else packCustom E p neg.toNat 0 x) = pack E p neg x := by
  have hpow := two_pow_pred hE
  have hEpos := two_pow_pos (E - 1)
  have hppos := two_pow_pos p
  rw [one_shiftLeft]
  by_cases h : x = 2 ^ p
  · rw [if_pos ⟨hp, h⟩, packCustom_eq neg hp (by omega) hppos, h, one_mul, add_zero]
  · rw [if_neg (fun hc => h hc.2), packCustom_eq neg hp (by omega) (by omega), zero_mul, zero_add]

theorem cvtFinite_below (frm : ℕ) (neg : Bool) (hE : 2 ≤ E) (hp : p ≠ 0) (hp31 : p < 31)
    (hi : 0 < i) {m' : ℕ} {e' : ℤ}
    {nx : Bool} (hred : reducePrecision frm neg p (f32Significand i) (f32Exponent i) = (m', e', nx))
    (hm : 2 ^ p ≤ m' ∧ m' < 2 ^ (p + 1)) (he : e' < emin E) :
    let t := (emin E - e').toNat
    (64 < t → cvtFinite neg.toNat (i / 2 ^ 23) (i % 2 ^ 23) E p frm = none) ∧
    (t ≤ 64 → ∃ flags, cvtFinite neg.toNat (i / 2 ^ 23) (i % 2 ^ 23) E p frm =
        some (pack E p neg (roundShift (modeOf frm) neg m' t), flags) ∧
      (flags.nx = true ↔ nx = true ∨ m' % 2 ^ t ≠ 0)) := by
  intro t
  have hsign := toNat_bne neg
  have hemin := emin_eq E
  have hbias : (2 : ℤ) ^ (E - 1) = (2 ^ (E - 1) : ℕ) := rfl
  have hEtwo : 2 ^ 1 ≤ 2 ^ (E - 1) := pow_le_pow_right (by norm_num) (by omega)
  have hp32 : 2 ^ (p + 1) ≤ 2 ^ 32 := pow_le_pow_right (by norm_num) (by omega)
  have ht : 1 ≤ t := by
    omega
  obtain ⟨hbig, hfits⟩ := roundSubnormal_eq frm neg hp (show m' ≠ 0 by omega) (by omega) ht
  simp only [cvtFinite, normalizeF32_eq hi, hsign, hred, hbias]
  rw [if_neg (by omega), if_neg (by omega), show 1 - (((2 ^ (E - 1) : ℕ) : ℤ) - 1) - e' =
    emin E - e' by omega]
  refine ⟨fun h => ?_, fun h => ?_⟩
  · rw [hbig h]
    rfl
  obtain ⟨disc, hdisc, hzero⟩ := hfits h
  have hle : roundShift (modeOf frm) neg m' t ≤ 2 ^ p := by
    have h1 := roundShift_le (modeOf frm) neg m' t
    have h2 : m' / 2 ^ t < 2 ^ p := by
      rw [Nat.div_lt_iff_lt_mul (two_pow_pos _)]
      have h3 : 2 ^ 1 ≤ 2 ^ t := pow_le_pow_right (by norm_num) ht
      have h4 := mul_le_mul_left (2 ^ p) h3
      omega
    omega
  rw [hdisc, ← packCustom_subnormal neg (show 1 ≤ E by omega) hp hle]
  simp only [Option.bind_eq_bind, Option.bind_some]
  split
  all_goals exact ⟨_, rfl, by simp [hzero]⟩

theorem cvtFinite_subnormal (frm : ℕ) (neg : Bool) (hE : 2 ≤ E) (hp : p ≠ 0) (hp31 : p < 31)
    (hi : 0 < i) (he : f32Exponent i < emin E) :
    let t := (emin E - f32Exponent i).toNat
    let w := f32Significand i * 2 ^ (p - 23)
    (64 < subnormalShift frm neg E p i →
      cvtFinite neg.toNat (i / 2 ^ 23) (i % 2 ^ 23) E p frm = none) ∧
    (subnormalShift frm neg E p i ≤ 64 →
      ∃ flags, cvtFinite neg.toNat (i / 2 ^ 23) (i % 2 ^ 23) E p frm =
          some (pack E p neg (roundShift (modeOf frm) neg (kept frm neg p (f32Significand i)) t),
            flags) ∧ (flags.nx = true ↔ w % 2 ^ (23 - p + t) ≠ 0)) := by
  intro t w
  have hm := f32Significand_bounds hi
  have hpp : 2 ^ (p + 1) = 2 * 2 ^ p := by ring
  have hinexact := inexact_iff (p := p) (m := f32Significand i) frm neg t
  obtain ⟨m', e', hred, hmlo, hmhi, hcases⟩ :=
    reducePrecision_cases (p := p) frm neg hm (f32Exponent i)
  rcases hcases with ⟨rfl, rfl⟩ | ⟨rfl, rfl, hcarry⟩
  · have hshift : subnormalShift frm neg E p i = t := by
      rw [subnormalShift, decide_eq_false (by omega)]
      rfl
    have hbelow := cvtFinite_below frm neg hE hp hp31 hi hred ⟨hmlo, hmhi⟩ he
    simp only [decide_eq_true_eq] at hbelow
    rw [hshift, ← hinexact]
    exact hbelow
  · have hrem := kept_carry frm neg hm hcarry
    have hshift : subnormalShift frm neg E p i = t - 1 := by
      rw [subnormalShift, decide_eq_true hcarry]
      rfl
    rw [hshift, ← hinexact, hcarry, hpp]
    by_cases hone : f32Exponent i + 1 < emin E
    · have ht : t = (emin E - (f32Exponent i + 1)).toNat + 1 := by
        omega
      have hbelow := cvtFinite_below frm neg hE hp hp31 hi hred ⟨hmlo, hmhi⟩ hone
      rw [ht, roundShift_double, Nat.add_sub_cancel]
      refine ⟨hbelow.1, fun h => ?_⟩
      obtain ⟨flags, heq, hnx⟩ := hbelow.2 h
      exact ⟨flags, heq, by simp [hnx, hrem]⟩
    · -- the carry makes the least normal number
      have ht : t = 1 := by
        omega
      rw [ht, Nat.sub_self, show (1 : ℕ) = 0 + 1 from rfl, roundShift_double, roundShift_zero]
      refine ⟨fun h => absurd h (by norm_num), fun _ => ?_⟩
      have hsign := toNat_bne neg
      have hemin := emin_eq E
      have hbias : (2 : ℤ) ^ (E - 1) = (2 ^ (E - 1) : ℕ) := rfl
      have hEtwo : 2 ^ 1 ≤ 2 ^ (E - 1) := pow_le_pow_right (by norm_num) (by omega)
      have hpow := two_pow_pred (show 1 ≤ E by omega)
      have hexp : (f32Exponent i + 1 + (((2 ^ (E - 1) : ℕ) : ℤ) - 1)).toNat = 1 := by omega
      simp only [cvtFinite, normalizeF32_eq hi, hsign, hred, hbias]
      rw [if_neg (by omega), if_pos (by omega)]
      refine ⟨_, congrArg some (Prod.ext ?_ rfl), by simp [hrem]⟩
      simp only [hexp, one_shiftLeft, hp, ne_eq, not_false_eq_true, ite_true,
        and_two_pow_sub_one_eq_mod, mod_self]
      rw [packCustom_eq neg hp (by omega) (two_pow_pos p), one_mul, add_zero]

end Encoder

section Correctness

variable {E p i : ℕ}

theorem magnitude_scaled (hi : 0 < i) : magnitude 8 23 i * 2 ^ (23 - p) =
    (f32Significand i * 2 ^ (p - 23) : ℕ) * (2 : ℚ) ^ (f32Exponent i - p) := by
  rw [magnitude_f32 hi]
  push_cast
  rw [mul_assoc, mul_assoc, ← zpow_natCast, ← zpow_natCast, ← zpow_add₀ (by norm_num),
    ← zpow_add₀ (by norm_num)]
  congr 2
  omega

theorem even_two_pow_mul (hp : p ≠ 0) (j k : ℕ) : (j * 2 ^ p + k) % 2 = k % 2 := by
  obtain ⟨q, rfl⟩ := exists_eq_succ_of_ne_zero hp
  rw [pow_succ, ← mul_assoc, mul_comm _ 2, mul_add_mod]

theorem normal_place (hi : 0 < i) (he : emin E ≤ f32Exponent i) :
    let k := f32Significand i * 2 ^ (p - 23) / 2 ^ (23 - p)
    let f := (f32Exponent i - emin E).toNat * 2 ^ p + k
    magnitude E p f = k * (2 : ℚ) ^ (f32Exponent i - p) ∧
      magnitude E p (f + 1) = (k + 1) * (2 : ℚ) ^ (f32Exponent i - p) := by
  intro k f
  obtain ⟨hlo, hhi⟩ := scaled_bounds (p := p) (f32Significand_bounds hi)
  have hexp : emin E - p + ((f32Exponent i - emin E).toNat : ℤ) = f32Exponent i - p := by omega
  have h1 :=
    magnitude_line (E := E) (p := p) (e := (f32Exponent i - emin E).toNat) hhi.le (.inr hlo)
  have h2 :=
    magnitude_line (E := E) (p := p) (e := (f32Exponent i - emin E).toNat) (k := k + 1) hhi
      (.inr (by omega))
  rw [hexp] at h1 h2
  refine ⟨h1, ?_⟩
  push_cast at h2
  exact h2

theorem subnormal_place (hi : 0 < i) (he : f32Exponent i < emin E) :
    let t := (emin E - f32Exponent i).toNat
    let w := f32Significand i * 2 ^ (p - 23)
    let f := w / 2 ^ (23 - p + t)
    f < 2 ^ p ∧ magnitude E p f = f * (2 : ℚ) ^ (emin E - p) ∧
      magnitude E p (f + 1) = (f + 1) * (2 : ℚ) ^ (emin E - p) ∧
      magnitude 8 23 i * 2 ^ (23 - p + t) = w * (2 : ℚ) ^ (emin E - p) := by
  intro t w f
  have hhi := (scaled_bounds (p := p) (f32Significand_bounds hi)).2
  have hlt : f < 2 ^ p := by
    change w / 2 ^ (23 - p + t) < 2 ^ p
    have h1 : 2 ^ 1 ≤ 2 ^ t :=
      pow_le_pow_right (by norm_num) (show 1 ≤ (emin E - f32Exponent i).toNat by omega)
    have h2 := mul_le_mul_left (2 ^ p) h1
    rw [pow_add, ← Nat.div_div_eq_div_mul, Nat.div_lt_iff_lt_mul (two_pow_pos _)]
    calc w / 2 ^ (23 - p) < 2 ^ (p + 1) := hhi
      _ = 2 ^ p * 2 ^ 1 := pow_add 2 p 1
      _ ≤ 2 ^ p * 2 ^ t := h2
  have hppos := two_pow_pos p
  have h1 := magnitude_line (E := E) (p := p) (e := 0) (k := f) (by omega) (.inl rfl)
  have h2 := magnitude_line (E := E) (p := p) (e := 0) (k := f + 1) (by omega) (.inl rfl)
  rw [zero_mul, zero_add, cast_zero, add_zero] at h1 h2
  refine ⟨hlt, h1, ?_, ?_⟩
  · rw [h2]
    push_cast
    rfl
  · have ht : ((t : ℕ) : ℤ) = emin E - f32Exponent i := Int.toNat_of_nonneg (by omega)
    rw [pow_add, ← mul_assoc, magnitude_scaled hi, mul_assoc, ← zpow_natCast 2 t,
      ← zpow_add₀ (by norm_num), ht]
    congr 2
    ring

theorem rounded_normal (frm : ℕ) (neg : Bool) (hp : p ≠ 0) (hi : 0 < i)
    (he : emin E ≤ f32Exponent i) {r : ℕ} :
    Rounded (magnitude E p) (modeOf frm) neg (magnitude 8 23 i) r ↔
      r = (f32Exponent i - emin E).toNat * 2 ^ p + kept frm neg p (f32Significand i) := by
  obtain ⟨hlo, hhi⟩ := normal_place (p := p) hi he
  rw [rounded_local (magnitude_strictMono E p) (modeOf frm) neg (by positivity) hlo hhi
    (magnitude_scaled hi)
    (even_two_pow_mul hp _ _), kept, roundShift, add_assoc]

theorem rounded_subnormal (frm : ℕ) (neg : Bool) (hi : 0 < i) (he : f32Exponent i < emin E)
    {r : ℕ} : Rounded (magnitude E p) (modeOf frm) neg (magnitude 8 23 i) r ↔
      r = roundShift (modeOf frm) neg (f32Significand i * 2 ^ (p - 23))
        (23 - p + (emin E - f32Exponent i).toNat) := by
  obtain ⟨-, hlo, hhi, ha⟩ := subnormal_place (p := p) hi he
  exact rounded_local (magnitude_strictMono E p) (modeOf frm) neg (by positivity) hlo hhi ha rfl

end Correctness

end VortexGpu.SoftFloat

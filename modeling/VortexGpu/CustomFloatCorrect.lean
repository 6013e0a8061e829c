import VortexGpu.CustomFloatSpec

/-!
# Correct rounding of the encoder

`cvt_f32_to_custom` on every binary32 number that is not NaN. Rounding to the precision first and
to the subnormal grid afterwards is one correct rounding except near the middles that
`RoundsTwice` names; the inexact flag is right in any case.
-/

namespace VortexGpu.SoftFloat

open DyadicRounding FloatFormat

def f32Index (value : BitVec 32) : ℕ := value.toNat % 2 ^ 31

def f32Sign (value : BitVec 32) : Bool := decide (value.toNat / 2 ^ 31 % 2 = 1)

def f32Value (value : BitVec 32) : FloatValue := ieeeValue 8 23 value.toNat

theorem infIndex_f32 : infIndex 8 23 = 0x7F800000 := by norm_num [infIndex]

theorem f32Value_eq (value : BitVec 32) : f32Value value =
    if f32Index value < infIndex 8 23 then .finite (f32Sign value) (magnitude 8 23 (f32Index value))
    else if f32Index value = infIndex 8 23 then .inf (f32Sign value) else .nan := rfl

theorem f32_fields (value : BitVec 32) : value.toNat >>> 31 = (f32Sign value).toNat ∧
    (value.toNat >>> 23) &&& 0xFF = f32Index value / 2 ^ 23 ∧
    value.toNat &&& 0x7FFFFF = f32Index value % 2 ^ 23 := by
  have hlt := value.isLt
  have h8 := Nat.and_two_pow_sub_one_eq_mod (value.toNat / 2 ^ 23) 8
  have h23 := Nat.and_two_pow_sub_one_eq_mod value.toNat 23
  norm_num at h8 h23
  rw [Nat.shiftRight_eq_div_pow, Nat.shiftRight_eq_div_pow, f32Sign, f32Index]
  norm_num [h8, h23]
  refine ⟨?_, by omega⟩
  have hbit := toNat_cases (x := decide (value.toNat / 2147483648 % 2 = 1)) decide_eq_true_iff
  omega

theorem cvtF32ToCustom_eq (value : BitVec 32) {E p : ℕ} (frm : ℕ) (hE : 1 ≤ E) (hp : p ≠ 0)
    (hfits : E + p ≤ 31) (hnan : f32Value value ≠ .nan) : cvtF32ToCustom value E p frm =
      if f32Index value = infIndex 8 23 then some (pack E p (f32Sign value) (infIndex E p), {})
      else if f32Index value = 0 then some (pack E p (f32Sign value) 0, {})
      else cvtFinite (f32Sign value).toNat (f32Index value / 2 ^ 23) (f32Index value % 2 ^ 23) E p
        frm := by
  obtain ⟨hsign, hexp, hsig⟩ := f32_fields value
  have hpow := two_pow_pred hE
  have hEpos := Nat.two_pow_pos (E - 1)
  have hppos := Nat.two_pow_pos p
  have hinf := infIndex_f32
  have hle : f32Index value ≤ infIndex 8 23 := by
    by_contra hgt
    rw [f32Value_eq, if_neg (by omega), if_neg (by omega)] at hnan
    exact hnan rfl
  have hwrap : (1 + E + p) % 2 ^ 32 = 1 + E + p := Nat.mod_eq_of_lt (by omega)
  simp only [cvtF32ToCustom, hsign, hexp, hsig, hwrap]
  rw [if_neg (by omega), if_neg (by omega)]
  by_cases h1 : f32Index value = infIndex 8 23
  · rw [if_pos h1, h1, hinf]
    norm_num
    rw [Nat.one_shiftLeft, packCustom_eq _ hp (by omega) hppos, infIndex, add_zero]
  · rw [if_neg h1, if_neg (show ¬ f32Index value / 2 ^ 23 = 0xFF by omega)]
    by_cases h0 : f32Index value = 0
    · rw [if_pos h0, if_pos (by omega), packCustom_eq _ hp (by omega) hppos, zero_mul]
    · rw [if_neg h0, if_neg (by omega)]

section Twice

variable {E p m : ℕ}

theorem kept_carry_iff (frm : ℕ) (neg : Bool) (hm : 2 ^ 23 ≤ m ∧ m < 2 ^ 24) :
    kept frm neg p m = 2 ^ (p + 1) ↔ CarriesOver (modeOf frm) neg m (23 - p) 24 := by
  rw [← roundShift_carry_iff (modeOf frm) neg (by omega) hm.2]
  rcases lt_or_ge p 23 with h | h
  · rw [kept, Nat.sub_eq_zero_of_le h.le, pow_zero, mul_one, show 24 - (23 - p) = p + 1 by omega]
  · have hhi := (scaled_bounds (p := p) hm).2
    rw [kept, Nat.sub_eq_zero_of_le h, roundShift_zero, roundShift_zero]
    rw [Nat.sub_eq_zero_of_le h, pow_zero, Nat.div_one] at hhi
    omega

theorem not_roundsTwice_zero (mode : Mode) (m : ℕ) {t : ℕ} (ht : 1 ≤ t) :
    ¬ RoundsTwice mode m 0 t := by
  have heven : 2 ^ (0 + t) = 2 * 2 ^ (t - 1) := by
    rw [← pow_succ']
    congr 1
    omega
  cases mode <;> simp only [RoundsTwice, pow_zero, not_false_eq_true] <;> omega

theorem kept_twice_iff (frm : ℕ) (neg : Bool) {t : ℕ} (ht : 1 ≤ t) :
    roundShift (modeOf frm) neg (kept frm neg p m) t =
      roundShift (modeOf frm) neg (m * 2 ^ (p - 23)) (23 - p + t) ↔
      ¬ RoundsTwice (modeOf frm) m (23 - p) t := by
  rw [kept, roundShift_twice_iff (modeOf frm) neg _ _ _ ht]
  rcases le_total p 23 with h | h
  · rw [Nat.sub_eq_zero_of_le h, pow_zero, mul_one]
  · rw [Nat.sub_eq_zero_of_le h]
    exact iff_of_true (not_roundsTwice_zero _ _ ht) (not_roundsTwice_zero _ _ ht)

end Twice

/-- The format fits in 32 bits, and a number below its normal range is neither near one of the
middles of the subnormal grid that rounding twice gets wrong nor so far below that the shift has
more than 64 bits. -/
def SingleRounding (value : BitVec 32) (E p frm : ℕ) : Prop :=
  let i := f32Index value
  let t := (emin E - f32Exponent i).toNat
  E + p ≤ 31 ∧ (0 < i → i < infIndex 8 23 → 0 < t →
    (t ≤ 64 ∨
      (t = 65 ∧ CarriesOver (modeOf frm) (f32Sign value) (f32Significand i) (23 - p) 24)) ∧
      ¬ RoundsTwice (modeOf frm) (f32Significand i) (23 - p) t)

instance (value : BitVec 32) (E p frm : ℕ) : Decidable (SingleRounding value E p frm) := by
  unfold SingleRounding
  infer_instance

section Encoder

variable {E p : ℕ} {value : BitVec 32}

theorem magnitude_ne {a : ℚ} {f : ℕ} (hlo : magnitude E p f < a)
    (hhi : a < magnitude E p (f + 1)) (c : ℕ) : magnitude E p c ≠ a := by
  rintro rfl
  have h1 := (magnitude_strictMono E p).lt_iff_lt.mp hlo
  have h2 := (magnitude_strictMono E p).lt_iff_lt.mp hhi
  omega

theorem infIndex_ge (hE : 2 ≤ E) : 3 * 2 ^ p ≤ infIndex E p := by
  have h4 : 2 ^ 2 ≤ 2 ^ E := Nat.pow_le_pow_right (by norm_num) hE
  exact Nat.mul_le_mul_right _ (by omega)

theorem rounded_zero (mode : Mode) (neg : Bool) : Rounded (magnitude E p) mode neg 0 0 := by
  have hpos : 1 ≤ 2 ^ (p + 1) := Nat.one_le_two_pow
  have h0 := magnitude_line (E := E) (p := p) (e := 0) (k := 0) (Nat.zero_le _) (.inl rfl)
  have h1 := magnitude_line (E := E) (p := p) (e := 0) (k := 1) hpos (.inl rfl)
  have hlocal :=
    rounded_local (r := 0) (f := 0) (m := 0) (k := 0) (a := 0) (magnitude_strictMono E p) mode neg
      (show (0 : ℚ) < 2 ^ (emin E - p) by positivity) (by simpa using h0) (by simpa using h1)
    (by simp) rfl
  rw [hlocal, Nat.zero_mod, increments_zero mode neg _ (by norm_num)]
  rfl

theorem value_ne_iff (mode : Mode) (neg : Bool) {a : ℚ} {f r d : ℕ}
    (hlo : magnitude E p f ≤ a)
    (hhi : a < magnitude E p (f + 1)) (hexact : a = magnitude E p f ↔ d = 0)
    (hd : d = 0 → r = f) (hinf : 1 ≤ infIndex E p) :
    ieeeValue E p (pack E p neg (clip E p mode neg r)) ≠ .finite neg a ↔ infIndex E p ≤ r ∨
    d ≠ 0 := by
  have hlt := infIndex_lt E p
  have hoff : d ≠ 0 → ∀ c, magnitude E p c ≠ a := fun h =>
    magnitude_ne (lt_of_le_of_ne hlo fun heq => h (hexact.mp heq.symm)) hhi
  by_cases hover : infIndex E p ≤ r
  · rw [clip_of_le hover]
    refine iff_of_true ?_ (.inl hover)
    split
    · rw [ieeeValue_pack neg hlt, if_neg (lt_irrefl _), if_pos rfl]
      simp
    rw [ieeeValue_pack neg (by omega), if_pos (by omega)]
    intro heq
    injection heq with _ hmag
    by_cases h0 : d = 0
    · have hlast := magnitude_strictMono E p (show infIndex E p - 1 < f by omega)
      exact absurd hmag (ne_of_lt (lt_of_lt_of_le hlast hlo))
    · exact hoff h0 _ hmag
  · rw [clip_of_lt (not_le.mp hover), ieeeValue_pack neg (by omega), if_pos (by omega)]
    simp only [hover, false_or, ne_eq, FloatValue.finite.injEq, true_and, not_iff_not]
    refine ⟨fun h => ?_, fun h => ?_⟩
    · by_contra h0
      exact hoff h0 _ h
    · rw [hd h]
      exact (hexact.mpr h).symm

/-- The conversion returns a correctly rounded code, and its inexact flag tells whether the value of
the code is that of the number. -/
def Encodes (value : BitVec 32) (E p frm : ℕ) : Prop :=
  ∃ code flags, cvtF32ToCustom value E p frm = some (code, flags) ∧
    Correct E p (modeOf frm) (f32Value value) code ∧
    (flags.nx = true ↔ ieeeValue E p code ≠ f32Value value)

theorem f32Value_finite (hlt : f32Index value < infIndex 8 23) :
    f32Value value = .finite (f32Sign value) (magnitude 8 23 (f32Index value)) := by
  rw [f32Value_eq, if_pos hlt]

theorem cvtF32ToCustom_finite (frm : ℕ) (hE : 1 ≤ E) (hp : p ≠ 0) (hfits : E + p ≤ 31)
    (hi : 0 < f32Index value)
    (hlt : f32Index value < infIndex 8 23) : cvtF32ToCustom value E p frm =
      cvtFinite (f32Sign value).toNat (f32Index value / 2 ^ 23) (f32Index value % 2 ^ 23) E p
        frm := by
  rw [cvtF32ToCustom_eq value frm hE hp hfits (by simp [f32Value_finite hlt]), if_neg (by omega),
    if_neg (by omega)]

theorem encodes_inf (frm : ℕ) (hE : 1 ≤ E) (hp : p ≠ 0) (hfits : E + p ≤ 31)
    (hi : f32Index value = infIndex 8 23) : Encodes value E p frm := by
  have hval : f32Value value = .inf (f32Sign value) := by
    rw [f32Value_eq, if_neg (by omega), if_pos hi]
  have hcvt := cvtF32ToCustom_eq value frm hE hp hfits (by simp [hval])
  rw [if_pos hi] at hcvt
  refine ⟨_, _, hcvt, ?_, ?_⟩
  · rw [hval]
    rfl
  · rw [hval, ieeeValue_pack _ (infIndex_lt E p), if_neg (lt_irrefl _), if_pos rfl]
    simp

section
variable (frm : ℕ) (hE : 2 ≤ E) (hp : p ≠ 0) (hfits : E + p ≤ 31)
include frm hE hp hfits

theorem encodes_zero (hi : f32Index value = 0) : Encodes value E p frm := by
  have hinf := infIndex_f32
  have hge := infIndex_ge (p := p) hE
  have hppos := Nat.two_pow_pos p
  have hzero : ∀ E p, magnitude E p 0 = 0 := by
    intro E p
    simp [magnitude, steps]
  have hval : f32Value value = .finite (f32Sign value) 0 := by
    rw [f32Value_finite (by omega), hi, hzero]
  have hcvt := cvtF32ToCustom_eq value frm (show 1 ≤ E by omega) hp hfits (by simp [hval])
  rw [if_neg (by omega), if_pos hi] at hcvt
  refine ⟨_, _, hcvt, ?_, ?_⟩
  · rw [hval]
    refine ⟨0, rounded_zero _ _, ?_⟩
    rw [clip_of_lt (by omega)]
  · rw [hval, ieeeValue_pack _ (Nat.two_pow_pos _), if_pos (by omega), hzero]
    simp

theorem encodes_normal (hi : 0 < f32Index value)
    (hlt : f32Index value < infIndex 8 23) (he : emin E ≤ f32Exponent (f32Index value)) :
    Encodes value E p frm := by
  have hval := f32Value_finite hlt
  have hge := infIndex_ge (p := p) hE
  have hppos := Nat.two_pow_pos p
  obtain ⟨flags, hcvt, hnx⟩ :=
    cvtFinite_normal (p := p) frm (f32Sign value) (show 1 ≤ E by omega) hp hi he
  obtain ⟨hlo, hhi⟩ := normal_place (p := p) hi he
  obtain ⟨hle, hgt, hexact, -⟩ := between (by positivity) hlo hhi (magnitude_scaled hi)
  refine ⟨_, flags, (cvtF32ToCustom_finite frm (by omega) hp hfits hi hlt).trans hcvt, ?_, ?_⟩
  · rw [hval]
    exact ⟨_, (rounded_normal frm _ hp hi he).mpr rfl, rfl⟩
  · rw [hval, hnx, value_ne_iff (modeOf frm) _ hle hgt hexact _ (by omega), Ne, Ne, scaled_mod]
    intro h0
    rw [kept_exact frm _ (scaled_mod.mp h0)]

theorem encodes_subnormal_iff (hi : 0 < f32Index value)
    (hlt : f32Index value < infIndex 8 23) (he : f32Exponent (f32Index value) < emin E) :
    Encodes value E p frm ↔ SingleRounding value E p frm := by
  have hval := f32Value_finite hlt
  have hm := f32Significand_bounds hi
  have hge := infIndex_ge (p := p) hE
  have hppos := Nat.two_pow_pos p
  have ht : 1 ≤ (emin E - f32Exponent (f32Index value)).toNat := by omega
  have hcvt := cvtF32ToCustom_finite frm (show 1 ≤ E by omega) hp hfits hi hlt
  obtain ⟨hbig, hfit⟩ :=
    cvtFinite_subnormal frm (f32Sign value) hE hp (show p < 31 by omega) hi he
  obtain ⟨hf, hlo, hhi, ha⟩ := subnormal_place (p := p) hi he
  obtain ⟨hle, hgt, hexact, -⟩ := between (by positivity) hlo hhi ha
  have hsingle : SingleRounding value E p frm ↔
      subnormalShift frm (f32Sign value) E p (f32Index value) ≤ 64 ∧
      ¬ RoundsTwice (modeOf frm) (f32Significand (f32Index value)) (23 - p)
        (emin E - f32Exponent (f32Index value)).toNat := by
    have hbit :=
      toNat_cases (x := decide (kept frm (f32Sign value) p (f32Significand (f32Index value)) =
        2 ^ (p + 1)))
      (decide_eq_true_iff.trans (kept_carry_iff frm (f32Sign value) hm))
    simp only [SingleRounding, hfits, hi, hlt,
      show 0 < (emin E - f32Exponent (f32Index value)).toNat from ht,
      true_and, forall_const, subnormalShift]
    refine and_congr_left fun _ => ?_
    rcases hbit with ⟨hc, hb⟩ | ⟨hc, hb⟩ <;> rw [hb] <;>
      simp only [hc, and_true, and_false, or_false] <;> omega
  rw [hsingle]
  by_cases h64 : subnormalShift frm (f32Sign value) E p (f32Index value) ≤ 64
  · obtain ⟨flags, heq, hnx⟩ := hfit h64
    have hresult :=
      kept_twice_iff (p := p) (m := f32Significand (f32Index value)) frm (f32Sign value) ht
    have hsmall :=
      roundShift_le (modeOf frm) (f32Sign value) (f32Significand (f32Index value) * 2 ^ (p - 23))
      (23 - p + (emin E - f32Exponent (f32Index value)).toNat)
    have hfin :
        roundShift (modeOf frm) (f32Sign value) (f32Significand (f32Index value) * 2 ^ (p - 23))
        (23 - p + (emin E - f32Exponent (f32Index value)).toNat) < infIndex E p := by omega
    simp only [h64, true_and]
    rw [← hresult]
    constructor
    · rintro ⟨code, flags', hcode, hcorrect, -⟩
      rw [hcvt, heq, Option.some_inj, Prod.mk.injEq] at hcode
      rw [hval] at hcorrect
      obtain ⟨r, hr, hpack⟩ := hcorrect
      rw [rounded_subnormal frm _ hi he] at hr
      rw [← hcode.1, clip_of_lt (by omega), pack_inj, hr] at hpack
      exact hpack
    · intro hsame
      refine ⟨_, flags, hcvt.trans heq, ?_, ?_⟩
      · rw [hval]
        refine ⟨_, (rounded_subnormal frm _ hi he).mpr rfl, ?_⟩
        rw [clip_of_lt hfin, hsame]
      rw [hsame]
      have hne := value_ne_iff (modeOf frm) (f32Sign value) hle hgt hexact
        (fun h0 => roundShift_exact (modeOf frm) (f32Sign value) h0) (by omega)
      rw [clip_of_lt hfin] at hne
      rw [hval, hnx, hne]
      simp [not_le.mpr hfin]
  · have hnone := hbig (by omega)
    refine iff_of_false ?_ fun h => h64 h.1
    rintro ⟨code, flags, hcode, -⟩
    rw [hcvt, hnone] at hcode
    exact absurd hcode (by simp)

end

/-- Every binary32 number that is not NaN, every accepted format with at least two exponent bits and
one fraction bit, and every rounding mode: the code is the correct rounding and the flag is right
exactly when one rounding does. -/
theorem encode_correct_iff (value : BitVec 32) (E p frm : ℕ) (hE : 2 ≤ E) (hp : 1 ≤ p)
    (hE32 : E < 2 ^ 32)
    (hp32 : p < 2 ^ 32) (haccepts : (1 + E + p) % 2 ^ 32 ≤ 32) (hnan : f32Value value ≠ .nan) :
    Encodes value E p frm ↔ SingleRounding value E p frm := by
  by_cases hfits : E + p ≤ 31
  · have hle : f32Index value ≤ infIndex 8 23 := by
      by_contra hgt
      rw [f32Value_eq, if_neg (by omega), if_neg (by omega)] at hnan
      exact hnan rfl
    rcases lt_or_eq_of_le hle with hlt | hinf
    · rcases Nat.eq_zero_or_pos (f32Index value) with h0 | hpos
      · exact iff_of_true (encodes_zero frm hE (by omega) hfits h0) ⟨hfits,
          fun h => absurd h (by omega)⟩
      · rcases le_or_gt (emin E) (f32Exponent (f32Index value)) with he | he
        · exact iff_of_true (encodes_normal frm hE (by omega) hfits hpos hlt he)
            ⟨hfits, fun _ _ ht => absurd ht (by omega)⟩
        · exact encodes_subnormal_iff frm hE (by omega) hfits hpos hlt he
    · exact iff_of_true (encodes_inf frm (by omega) (by omega) hfits hinf) ⟨hfits,
        fun _ h => absurd h (by omega)⟩
  · -- the sum of the widths has wrapped round, and one of them is too large for a shift
    refine iff_of_false ?_ fun h => hfits h.1
    rintro ⟨code, flags, hcvt, -⟩
    rw [cvtF32ToCustom, if_neg (by omega), if_pos (by omega)] at hcvt
    exact absurd hcvt (by simp)

end Encoder

/-- `1.125 * 2 ^ -7` to e4m3, halfway between two subnormal numbers: the tie goes to even. -/
theorem encode_correct_iff_tie :
    SingleRounding 0x3C100000#32 4 3 0 ∧ Encodes 0x3C100000#32 4 3 0 :=
  have h : SingleRounding 0x3C100000#32 4 3 0 := by decide +kernel
  ⟨h, (encode_correct_iff 0x3C100000#32 4 3 0 (by decide) (by decide) (by decide) (by decide)
      (by decide)
    (by decide +kernel)).mpr h⟩

/-- The next number above is rounded down to that tie first and then to even, to `4` where `5` is
nearer. And `2 ^ -80` needs a shift by 74 bits. -/
theorem encode_rounds_twice :
    cvtF32ToCustom 0x3C100001#32 4 3 0 = some (4, { nx := true, uf := true }) ∧
      Correct 4 3 (modeOf 0) (f32Value 0x3C100001#32) 5 ∧
      ¬ Correct 4 3 (modeOf 0) (f32Value 0x3C100001#32) 4 ∧
      cvtF32ToCustom 0x17800000#32 4 3 0 = none := by
  have hval : f32Value 0x3C100001#32 = .finite false (magnitude 8 23 0x3C100001) := by
    decide +kernel
  have hround :=
    fun r => rounded_subnormal (E := 4) (p := 3) (i := 0x3C100001) (r := r) 0 false (by decide)
    (by decide +kernel)
  have hfive : roundShift (modeOf 0) false (f32Significand 0x3C100001 * 2 ^ (3 - 23))
      (23 - 3 + (emin 4 - f32Exponent 0x3C100001).toNat) = 5 := by decide +kernel
  refine ⟨by decide +kernel, ?_, ?_, by decide +kernel⟩
  · rw [hval]
    exact ⟨5, (hround 5).mpr hfive.symm, by decide +kernel⟩
  · rw [hval]
    rintro ⟨r, hr, hcode⟩
    rw [(hround r).mp hr, hfive] at hcode
    exact absurd hcode (by decide +kernel)

end VortexGpu.SoftFloat

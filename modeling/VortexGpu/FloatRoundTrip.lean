import VortexGpu.CustomFloatCorrect

/-!
# The float conversions there and back

`cvt_custom_to_f32` is exact for every format that binary32 contains, and the encoder maps the
result to the code again. The two disagree about e4m3: the decoder reads its last binade as
numbers, with a single NaN, and the encoder keeps it for infinity and NaN.
-/

namespace VortexGpu.SoftFloat
open BitVec (ofNat)
open Nat (mod_lt two_pow_pos)
open Nat DyadicRounding FloatFormat Option

def customValue (E p code : ℕ) : FloatValue :=
  if E = 4 ∧ p = 3 then
    if code % 128 = 127 then .nan
    else .finite (decide (code / 128 % 2 = 1)) (magnitude 4 3 (code % 128))
  else ieeeValue E p code

section Exact

variable {E p i : ℕ}

theorem not_roundsTwice_exact (mode : Mode) {m s t : ℕ} (ht : 1 ≤ t) (h : m % 2 ^ (s + t) = 0) :
    ¬ RoundsTwice mode m s t := by
  have hlt : 2 ^ s < 2 ^ (s + t) := Nat.pow_lt_pow_right (by norm_num) (by omega)
  cases mode <;> simp only [RoundsTwice, h, not_false_eq_true] <;> omega

theorem leadExponent_ge {j : ℕ} (hj : 0 < j) (hi : 0 < i)
    (hmag : magnitude 8 23 j = magnitude E p i) : emin E - p ≤ f32Exponent j := by
  have hsteps : 1 ≤ steps p i := by
    have := steps_strictMono p hi
    omega
  have hlow : (2 : ℚ) ^ (emin E - p) ≤ magnitude E p i := by
    have hone : (1 : ℚ) ≤ steps p i := by exact_mod_cast hsteps
    exact le_mul_of_one_le_left (by positivity) hone
  have hm : (f32Significand j : ℚ) < 2 ^ 24 := by exact_mod_cast (f32Significand_bounds hj).2
  have hhigh : magnitude 8 23 j < 2 ^ (f32Exponent j + 1) := by
    rw [magnitude_f32 hj]
    calc (f32Significand j : ℚ) * 2 ^ (f32Exponent j - 23) < 2 ^ 24 * 2 ^ (f32Exponent j - 23) :=
          mul_lt_mul_of_pos_right hm (by positivity)
      _ = 2 ^ (f32Exponent j + 1) := by
          rw [← zpow_natCast, ← zpow_add₀ (by norm_num)]
          congr 1
          ring
  rw [hmag] at hhigh
  have hexp :=
    (zpow_lt_zpow_iff_right₀ (by norm_num : (1 : ℚ) < 2)).mp (lt_of_le_of_lt hlow hhigh)
  omega

theorem encode_grid (value : BitVec 32) (frm : ℕ) (hE : 2 ≤ E) (hp : p ≠ 0) (hp23 : p ≤ 23)
    (hfits : E + p ≤ 31)
    (hj : 0 < f32Index value) (hlt : f32Index value < infIndex 8 23) (hi : 0 < i)
    (hmag : magnitude 8 23 (f32Index value) = magnitude E p i) :
    ∃ flags, cvtF32ToCustom value E p frm =
      some (pack E p (f32Sign value) (clip E p (modeOf frm) (f32Sign value) i), flags) := by
  have henc : Encodes value E p frm := by
    rcases le_or_gt (emin E) (f32Exponent (f32Index value)) with he | he
    · exact encodes_normal frm hE hp hfits hj hlt he
    have hge := leadExponent_ge hj hi hmag
    obtain ⟨-, hlo, hhi, ha⟩ := subnormal_place (p := p) hj he
    obtain ⟨hle, hgt, hexact, -⟩ := between (by positivity) hlo hhi ha
    rw [hmag] at hle hgt hexact
    have hfi := (magnitude_strictMono E p).le_iff_le.mp hle
    have hif := (magnitude_strictMono E p).lt_iff_lt.mp hgt
    have hrem := hexact.mp (congrArg (magnitude E p) (by omega))
    rw [Nat.sub_eq_zero_of_le hp23, pow_zero, mul_one] at hrem
    rw [encodes_subnormal_iff frm hE hp hfits hj hlt he]
    exact ⟨hfits, fun _ _ ht => ⟨.inl (by omega), not_roundsTwice_exact _ ht hrem⟩⟩
  obtain ⟨code, flags, hcvt, hcorrect, -⟩ := henc
  rw [f32Value_finite hlt] at hcorrect
  obtain ⟨r, hr, rfl⟩ := hcorrect
  rw [hmag, rounded_self_iff (magnitude_strictMono E p)] at hr
  exact ⟨flags, hr ▸ hcvt⟩

end Exact

section Decoder

variable {E p i : ℕ}

theorem normalizeCustom_eq (hp : p ≤ 31) (hi : 0 < i) :
    normalizeCustom E p (i / 2 ^ p) (i % 2 ^ p) = (significand p i, leadExponent E p i) := by
  have hemin := emin_eq E
  have hbias : (2 : ℤ) ^ (E - 1) = (2 ^ (E - 1) : ℕ) := rfl
  have hppos := two_pow_pos p
  by_cases hlt : i < 2 ^ p
  · have hlog := log2_lt_of_lt hi hlt
    have hsh : clz32 i - (31 - p) = p - log2 i := by
      rw [clz32]
      omega
    simp only [normalizeCustom, div_eq_of_lt hlt, mod_eq_of_lt hlt, ite_true, hsh, significand,
      leadExponent, if_pos hlt, shiftLeft_eq, hbias]
    congr 1
    omega
  · have hexp : i / 2 ^ p ≠ 0 := by
      have := (Nat.one_le_div_iff hppos).mpr (not_lt.mp hlt)
      omega
    have hor : (1 <<< p) ||| (i % 2 ^ p) = 2 ^ p + i % 2 ^ p := by
      rw [← Nat.shiftLeft_add_eq_or_of_lt (mod_lt _ hppos), one_shiftLeft]
    simp only [normalizeCustom, if_neg hexp, significand, leadExponent, if_neg hlt, hor, hbias]
    congr 1
    omega

theorem packF32_eq (neg : Bool) {exp mant : ℕ} (hexp : exp < 2 ^ 8) (hmant : mant < 2 ^ 23) :
    packF32 neg.toNat exp mant = pack 8 23 neg (exp * 2 ^ 23 + mant) := by
  have hlow : exp <<< 23 + mant < 2 ^ 31 := by
    rw [shiftLeft_eq]
    omega
  have hsign : (neg.toNat <<< 31) % 2 ^ 32 = neg.toNat <<< 31 := by cases neg <;> rfl
  rw [packF32, hsign, Nat.or_assoc, ← Nat.shiftLeft_add_eq_or_of_lt hmant,
    ← Nat.shiftLeft_add_eq_or_of_lt hlow, shiftLeft_eq, shiftLeft_eq, pack]

theorem widened_bounds (hp : p ≤ 23) (hi : 0 < i) :
    2 ^ 23 ≤ significand p i * 2 ^ (23 - p) ∧ significand p i * 2 ^ (23 - p) < 2 ^ 24 := by
  obtain ⟨hlo, hhi⟩ := significand_bounds (p := p) hi
  have h1 : 2 ^ p * 2 ^ (23 - p) = 2 ^ 23 := pow_mul_pow_sub 2 hp
  rw [pow_succ 2 23, ← h1, mul_right_comm, ← pow_succ]
  exact ⟨Nat.mul_le_mul_right _ hlo, Nat.mul_lt_mul_of_pos_right hhi (two_pow_pos _)⟩

theorem leadExponent_ge_emin (h : 2 ^ p ≤ i) : emin E ≤ leadExponent E p i := by
  have := (Nat.one_le_div_iff (two_pow_pos p)).mpr h
  rw [leadExponent, if_neg (not_lt.mpr h)]
  omega

theorem emin_ge (hE : E ≤ 8) : -126 ≤ emin E := by
  have hpow : 2 ^ (E - 1) ≤ 2 ^ 7 := Nat.pow_le_pow_right (by norm_num) (by omega)
  rw [emin_eq]
  omega

theorem cvtFiniteCustom_normal (frm : ℕ) (neg : Bool) (hp : p ≤ 23) (hi : 0 < i)
    (hlo : -126 ≤ leadExponent E p i) (hhi : leadExponent E p i ≤ 127) :
    ∃ j, cvtFiniteCustom neg.toNat (i / 2 ^ p) (i % 2 ^ p) E p frm =
      some (pack 8 23 neg j, {}) ∧
    0 < j ∧ j < infIndex 8 23 ∧ magnitude 8 23 j = magnitude E p i := by
  obtain ⟨hmlo, hmhi⟩ := widened_bounds hp hi
  have hinf := infIndex_f32
  have hand := and_two_pow_sub_one_eq_mod (significand p i * 2 ^ (23 - p)) 23
  refine ⟨(leadExponent E p i + 126).toNat * 2 ^ 23 + significand p i * 2 ^ (23 - p),
    ?_, by omega, by omega, ?_⟩
  · simp only [cvtFiniteCustom, normalizeCustom_eq (show p ≤ 31 by omega) hi, widenPrecision,
      if_neg (not_lt.mpr hp), shiftLeft_eq]
    rw [if_neg (by omega), if_pos (by omega), hand, packF32_eq neg
      (show (leadExponent E p i + 127).toNat < 2 ^ 8 by omega)
      (show significand p i * 2 ^ (23 - p) % 8388608 < 2 ^ 23 by omega)]
    refine congrArg some (Prod.ext ?_ ?_)
    · rw [pack_inj]
      omega
    · simp [not_lt.mpr hp]
  · rw [magnitude_line (E := 8) (p := 23) hmhi.le (.inr hmlo), magnitude_eq hi, emin_f32]
    push_cast
    rw [mul_assoc, ← zpow_natCast, ← zpow_add₀ (by norm_num)]
    congr 2
    omega

theorem cvtFiniteCustom_subnormal (frm : ℕ) (neg : Bool) (hE : E ≤ 8) (hp : p ≤ 23)
    (hi : 0 < i) (hlo : leadExponent E p i < -126) :
    ∃ j, cvtFiniteCustom neg.toNat (i / 2 ^ p) (i % 2 ^ p) E p frm =
      some (pack 8 23 neg j, {}) ∧
    0 < j ∧ j < infIndex 8 23 ∧ magnitude 8 23 j = magnitude E p i := by
  have hinf := infIndex_f32
  have hlt : i < 2 ^ p := by
    by_contra hge
    have h1 := leadExponent_ge_emin (E := E) (not_lt.mp hge)
    have h2 := emin_ge hE
    omega
  have hlead : leadExponent E p i = log2 i + emin E - p := by rw [leadExponent, if_pos hlt]
  have hE8 : emin E = -126 := by
    by_cases h : E = 8
    · rw [h, emin_f32]
    · have hpow : 2 ^ (E - 1) ≤ 2 ^ 6 := Nat.pow_le_pow_right (by norm_num) (by omega)
      have := emin_eq E
      omega
  have hsig : significand p i * 2 ^ (23 - p) = i * 2 ^ (23 - p) * 2 ^ (p - log2 i) := by
    rw [significand, if_pos hlt]
    ring
  have ht : (1 - (leadExponent E p i + 127)).toNat = p - log2 i := by omega
  have hj : i * 2 ^ (23 - p) < 2 ^ 23 := by
    calc i * 2 ^ (23 - p) < 2 ^ p * 2 ^ (23 - p) := Nat.mul_lt_mul_of_pos_right hlt (two_pow_pos _)
      _ = 2 ^ 23 := pow_mul_pow_sub 2 hp
  have hjpos : 0 < i * 2 ^ (23 - p) := mul_pos hi (two_pow_pos _)
  obtain ⟨hmlo, hmhi⟩ := widened_bounds hp hi
  have hrem : significand p i * 2 ^ (23 - p) % 2 ^ (p - log2 i) = 0 := by rw [hsig, mul_mod_left]
  have hround : roundShift (modeOf frm) neg (significand p i * 2 ^ (23 - p)) (p - log2 i) =
      i * 2 ^ (23 - p) := by
    rw [roundShift_exact _ _ hrem, hsig, Nat.mul_div_cancel _ (two_pow_pos _)]
  obtain ⟨disc, hdisc, hzero⟩ := (roundSubnormal_eq (p := 23) frm neg (by norm_num)
    (show significand p i * 2 ^ (23 - p) ≠ 0 by omega) (by omega)
    (show 1 ≤ p - log2 i by omega)).2 (by omega)
  rw [hround, hzero.mpr hrem] at hdisc
  refine ⟨i * 2 ^ (23 - p), ?_, hjpos, by omega, ?_⟩
  · have hsign := toNat_bne neg
    simp only [cvtFiniteCustom, normalizeCustom_eq (show p ≤ 31 by omega) hi, widenPrecision,
      if_neg (not_lt.mpr hp), shiftLeft_eq, hsign]
    rw [if_neg (by omega), if_neg (by omega), ht, hdisc]
    simp only [bind_eq_bind, bind_some]
    rw [if_neg (by omega), packF32_eq neg (by norm_num) hj]
    simp [not_lt.mpr hp]
  · have h1 :=
      magnitude_line (E := 8) (p := 23) (e := 0) (k := i * 2 ^ (23 - p)) (by omega) (.inl rfl)
    have h2 :=
      magnitude_line (E := E) (p := p) (e := 0) (k := i) (by rw [pow_succ]; omega) (.inl rfl)
    rw [zero_mul, zero_add] at h1 h2
    rw [h1, h2, hE8, emin_f32]
    push_cast
    rw [mul_assoc, ← zpow_natCast, ← zpow_add₀ (by norm_num)]
    congr 2
    omega

theorem leadExponent_le (hE : 2 ≤ E) (hi : i < 2 ^ (E + p)) :
    leadExponent E p i ≤ 2 ^ (E - 1) ∧
    (i < infIndex E p → leadExponent E p i ≤ 2 ^ (E - 1) - 1) := by
  have hemin := emin_eq E
  have hpow := two_pow_pred (show 1 ≤ E by omega)
  have hbias : (2 : ℤ) ^ (E - 1) = (2 ^ (E - 1) : ℕ) := rfl
  have hEtwo : 2 ^ 1 ≤ 2 ^ (E - 1) := Nat.pow_le_pow_right (by norm_num) (by omega)
  rw [hbias, leadExponent]
  split
  · rename_i hlt
    rcases Nat.eq_zero_or_pos i with rfl | hpos
    · simp only [log2_zero]
      omega
    · have hlog := log2_lt_of_lt hpos hlt
      omega
  · have h1 : i / 2 ^ p < 2 ^ E := by
      rw [Nat.div_lt_iff_lt_mul (two_pow_pos p), ← pow_add]
      exact hi
    have h2 : i < infIndex E p → i / 2 ^ p < 2 ^ E - 1 := fun h => by
      rw [Nat.div_lt_iff_lt_mul (two_pow_pos p)]
      exact h
    refine ⟨by omega, fun h => ?_⟩
    have := h2 h
    omega

theorem cvtFiniteCustom_eq (frm : ℕ) (neg : Bool) (hE : E ≤ 8) (hp : p ≤ 23) (hi : 0 < i)
    (hhi : leadExponent E p i ≤ 127) :
    ∃ j, cvtFiniteCustom neg.toNat (i / 2 ^ p) (i % 2 ^ p) E p frm =
      some (pack 8 23 neg j, {}) ∧
    0 < j ∧ j < infIndex 8 23 ∧ magnitude 8 23 j = magnitude E p i := by
  rcases le_or_gt (-126) (leadExponent E p i) with hlo | hlo
  · exact cvtFiniteCustom_normal frm neg hp hi hlo hhi
  · exact cvtFiniteCustom_subnormal frm neg hE hp hi hlo

structure Within (E p : ℕ) : Prop where
  exp_lo : 2 ≤ E
  exp_hi : E ≤ 8
  sig_lo : 1 ≤ p
  sig_hi : p ≤ 23

theorem custom_fields {c : ℕ} (hc : c < 2 ^ (1 + E + p)) :
    let i := c % 2 ^ (E + p)
    c >>> (E + p) = (decide (c / 2 ^ (E + p) % 2 = 1)).toNat ∧
      (c >>> p) &&& (1 <<< E - 1) = i / 2 ^ p ∧ c &&& (1 <<< p - 1) = i % 2 ^ p := by
  intro i
  have hlt : c / 2 ^ (E + p) < 2 := by
    rw [Nat.div_lt_iff_lt_mul (two_pow_pos _)]
    calc c < 2 ^ (1 + E + p) := hc
      _ = 2 * 2 ^ (E + p) := by ring
  refine ⟨?_, ?_, ?_⟩
  · have hbit := toNat_cases (x := decide (c / 2 ^ (E + p) % 2 = 1)) decide_eq_true_iff
    rw [shiftRight_eq_div_pow]
    generalize c / 2 ^ (E + p) = q at hlt hbit ⊢
    omega
  · rw [one_shiftLeft, and_two_pow_sub_one_eq_mod, shiftRight_eq_div_pow]
    change _ = c % 2 ^ (E + p) / 2 ^ p
    rw [add_comm E p, pow_add, mod_mul_right_div_self]
  · rw [one_shiftLeft, and_two_pow_sub_one_eq_mod]
    change _ = c % 2 ^ (E + p) % 2 ^ p
    rw [mod_mod_of_dvd _ (pow_dvd_pow 2 (by omega))]

theorem decode_index (frm : ℕ) (hw : Within E p) {c : ℕ} (hc : c < 2 ^ (1 + E + p))
    (hnan : customValue E p c ≠ .nan) : let i := c % 2 ^ (E + p)
    let neg := decide (c / 2 ^ (E + p) % 2 = 1)
    ∃ j, cvtCustomToF32 c E p frm = some (pack 8 23 neg j, {}) ∧
      ((i = 0 ∧ j = 0 ∧ customValue E p c = .finite neg (magnitude E p i)) ∨
        (i = infIndex E p ∧ j = infIndex 8 23 ∧ customValue E p c = .inf neg) ∨
        (0 < i ∧ 0 < j ∧ j < infIndex 8 23 ∧ magnitude 8 23 j = magnitude E p i ∧
          customValue E p c = .finite neg (magnitude E p i) ∧
          (infIndex E p ≤ i → E = 4 ∧ p = 3))) := by
  intro i neg
  obtain ⟨hE2, hE8, hp1, hp23⟩ := hw
  obtain ⟨hsign, hexp, hsig⟩ := custom_fields hc
  have hi : i < 2 ^ (E + p) := mod_lt _ (two_pow_pos _)
  have hwrap : (1 + E + p) % 2 ^ 32 = 1 + E + p := mod_eq_of_lt (by omega)
  have hppos := two_pow_pos p
  have hdm := div_add_mod i (2 ^ p)
  have hbound := leadExponent_le hE2 hi
  have hzero : i / 2 ^ p = 0 ∧ i % 2 ^ p = 0 ↔ i = 0 := by
    refine ⟨fun h => ?_, fun h => ?_⟩
    · rw [h.1, h.2] at hdm
      omega
    · rw [h]
      simp
  change _ = i / 2 ^ p at hexp
  change _ = i % 2 ^ p at hsig
  simp only [cvtCustomToF32, hsign, hexp, hsig, hwrap]
  rw [if_neg (by omega), if_neg (by omega)]
  by_cases he4 : E = 4 ∧ p = 3
  · obtain ⟨rfl, rfl⟩ := he4
    have hnot : i ≠ 127 := fun h => hnan (if_pos h)
    have hval : customValue 4 3 c = .finite neg (magnitude 4 3 i) := if_neg hnot
    have hspecial : (i / 2 ^ 3 == 0xf && i % 2 ^ 3 == 0x7) = false := by
      rw [Bool.eq_false_iff]
      simp only [ne_eq, Bool.and_eq_true, beq_iff_eq]
      omega
    simp only [and_self, decide_true, Bool.true_and, hspecial, Bool.not_true, Bool.false_and,
      Bool.false_eq_true, ite_false, hzero]
    by_cases h0 : i = 0
    · rw [if_pos h0, packF32_eq neg (by norm_num) (by norm_num)]
      exact ⟨0, rfl, .inl ⟨h0, rfl, hval⟩⟩
    · rw [if_neg h0]
      obtain ⟨j, hcvt, hj, hjlt, hmag⟩ :=
        cvtFiniteCustom_eq (E := 4) (p := 3) (i := i) frm neg (by norm_num)
        (by norm_num) (by omega) (by omega)
      exact ⟨j, hcvt, .inr (.inr ⟨by omega, hj, hjlt, hmag, hval, fun _ => trivial⟩)⟩
  · have hval : customValue E p c = ieeeValue E p c := if_neg he4
    have hieee : ieeeValue E p c = if i < infIndex E p then .finite neg (magnitude E p i)
        else if i = infIndex E p then .inf neg else .nan := rfl
    have htop : i / 2 ^ p = 2 ^ E - 1 ↔ infIndex E p ≤ i := by
      rw [infIndex, ← le_div_iff_mul_le hppos]
      have : i / 2 ^ p < 2 ^ E := by
        rw [Nat.div_lt_iff_lt_mul hppos, ← pow_add]
        exact hi
      omega
    have hle : i ≤ infIndex E p := by
      by_contra hgt
      rw [hval, hieee, if_neg (by omega), if_neg (by omega)] at hnan
      exact hnan rfl
    simp only [he4, decide_false, Bool.false_and, Bool.false_eq_true, ite_false, Bool.not_false,
      Bool.true_and, beq_iff_eq, one_shiftLeft, htop, hzero]
    by_cases hinf : i = infIndex E p
    · have hmod : i % 2 ^ p = 0 := by rw [hinf, infIndex, mul_mod_left]
      rw [if_pos hinf.ge, if_neg (by simp [hmod]), packF32_eq neg (by norm_num) (by norm_num)]
      refine ⟨infIndex 8 23, rfl, .inr (.inl ⟨hinf, rfl, ?_⟩)⟩
      rw [hval, hieee, if_neg (by omega), if_pos hinf]
    · rw [if_neg (by omega)]
      by_cases h0 : i = 0
      · rw [if_pos h0, packF32_eq neg (by norm_num) (by norm_num)]
        refine ⟨0, rfl, .inl ⟨h0, rfl, ?_⟩⟩
        rw [hval, hieee, if_pos (by omega)]
      have hpow : (2 : ℤ) ^ (E - 1) ≤ 2 ^ 7 := pow_le_pow_right₀ (by norm_num) (by omega)
      have hlead := hbound.2 (by omega)
      obtain ⟨j, hcvt, hj, hjlt, hmag⟩ :=
        cvtFiniteCustom_eq (E := E) (p := p) (i := i) frm neg hE8 hp23 (by omega)
        (by omega)
      rw [if_neg h0]
      refine ⟨j, hcvt,
        .inr (.inr ⟨by omega, hj, hjlt, hmag, ?_, fun h => absurd h (by omega)⟩)⟩
      rw [hval, hieee, if_pos (by omega)]

end Decoder

/-- The code is not in the binade that e4m3 has for numbers, or it is the first one there and the
rounding mode takes an overflow to the pattern that the encoder has for infinity. -/
def RoundTrips (E p frm c : ℕ) : Prop :=
  E = 4 → p = 3 → 120 ≤ c % 128 →
    c % 128 = 120 ∧ overflowsToInf (modeOf frm) (decide (c / 128 % 2 = 1)) = true

instance (E p frm c : ℕ) : Decidable (RoundTrips E p frm c) := by
  unfold RoundTrips
  infer_instance

section There

variable {E p : ℕ}

theorem f32_ofNat_pack (neg : Bool) {j : ℕ} (hj : j < 2 ^ 31) :
    (ofNat 32 (pack 8 23 neg j)).toNat = pack 8 23 neg j ∧
    f32Index (ofNat 32 (pack 8 23 neg j)) = j ∧ f32Sign (ofNat 32 (pack 8 23 neg j)) = neg := by
  have hb := Bool.toNat_le neg
  have htoNat : (ofNat 32 (pack 8 23 neg j)).toNat = pack 8 23 neg j := by
    rw [BitVec.toNat_ofNat]
    apply mod_eq_of_lt
    rw [pack]
    omega
  obtain ⟨hsign, hindex⟩ := pack_fields (E := 8) (p := 23) neg hj
  refine ⟨htoNat, ?_, ?_⟩
  · rw [f32Index, htoNat]
    exact hindex
  · rw [f32Sign, htoNat]
    rw [show (31 : ℕ) = 8 + 23 from rfl, hsign]
    cases neg <;> rfl

theorem clip_eq_self_iff (mode : Mode) (neg : Bool) {i : ℕ} (hinf : 1 ≤ infIndex E p) :
    clip E p mode neg i = i ↔
    (infIndex E p ≤ i → i = infIndex E p ∧ overflowsToInf mode neg = true) := by
  by_cases h : infIndex E p ≤ i
  · rw [clip_of_le h]
    split <;> rename_i hover
    · simp only [h, hover, forall_const, and_true]
      omega
    · rw [Bool.not_eq_true] at hover
      simp only [h, hover, forall_const, Bool.false_eq_true, and_false, iff_false]
      omega
  · rw [clip_of_lt (not_le.mp h)]
    simp [h]

theorem decode_encode (frm : ℕ) (hw : Within E p) {c : ℕ} (hc : c < 2 ^ (1 + E + p))
    (hnan : customValue E p c ≠ .nan) :
    ∃ bits flags, cvtCustomToF32 c E p frm = some (bits, flags) ∧
    f32Value (ofNat 32 bits) = customValue E p c ∧
      ∃ code flags', cvtF32ToCustom (ofNat 32 bits) E p frm = some (code, flags') ∧
      code < 2 ^ (1 + E + p) ∧ (code = c ↔ RoundTrips E p frm c) := by
  obtain ⟨j, hcvt, hcases⟩ := decode_index frm hw hc hnan
  obtain ⟨hE2, hE8, hp1, hp23⟩ := hw
  have hinf := infIndex_f32
  have hge := infIndex_ge (p := p) hE2
  have hlt := infIndex_lt E p
  have hppos := two_pow_pos p
  have hself := pack_self (E := E) (p := p) hc
  set neg := decide (c / 2 ^ (E + p) % 2 = 1)
  set i := c % 2 ^ (E + p) with hi
  have hj : j < 2 ^ 31 := by omega
  obtain ⟨htoNat, hindex, hsign⟩ := f32_ofNat_pack neg hj
  have hneg : ∀ {x : ℕ}, x < 2 ^ (E + p) → pack E p neg x < 2 ^ (1 + E + p) := by
    intro x hx
    have hb := Bool.toNat_le neg
    have hmul := Nat.mul_le_mul_right (2 ^ (E + p)) hb
    rw [pack, show 1 + E + p = E + p + 1 by omega, pow_succ]
    omega
  have hzero : ∀ E p, magnitude E p 0 = 0 := by
    intro E p
    simp [magnitude, steps]
  -- outside e4m3 no finite code is in the last binade
  have htrips : (infIndex E p ≤ i → E = 4 ∧ p = 3) →
      (RoundTrips E p frm c ↔ (infIndex E p ≤ i → i = infIndex E p ∧
        overflowsToInf (modeOf frm) neg = true)) := by
    intro h4
    rw [RoundTrips]
    by_cases he4 : E = 4 ∧ p = 3
    · obtain ⟨rfl, rfl⟩ := he4
      simp only [forall_const]
      exact Iff.rfl
    · exact iff_of_true (fun h1 h2 => absurd ⟨h1, h2⟩ he4) fun h => absurd (h4 h) he4
  rcases hcases with ⟨h0, rfl, hval⟩ | ⟨htop, rfl, hval⟩ |
    ⟨hpos, hjpos, hjlt, hmag, hval, h4⟩
  · have hfin : f32Value (ofNat 32 (pack 8 23 neg 0)) = customValue E p c := by
      rw [f32Value_eq, hindex, hsign, if_pos (by omega), hval, h0, hzero, hzero]
    have henc := cvtF32ToCustom_eq (ofNat 32 (pack 8 23 neg 0)) frm
      (show 1 ≤ E by omega) (show p ≠ 0 by omega) (by omega) (by rw [hfin]; exact hnan)
    rw [hindex, hsign, if_neg (by omega), if_pos rfl] at henc
    refine ⟨_, _, hcvt, hfin, _, _, henc, hneg (two_pow_pos _), ?_⟩
    rw [← h0, hself]
    refine iff_of_true rfl ((htrips fun h => ?_).mpr fun h => ?_) <;> omega
  · have hfin : f32Value (ofNat 32 (pack 8 23 neg (infIndex 8 23))) =
        customValue E p c := by
      rw [f32Value_eq, hindex, hsign, if_neg (lt_irrefl _), if_pos rfl, hval]
    have henc := cvtF32ToCustom_eq (ofNat 32 (pack 8 23 neg (infIndex 8 23))) frm
      (show 1 ≤ E by omega) (show p ≠ 0 by omega) (by omega) (by rw [hfin]; exact hnan)
    rw [hindex, hsign, if_pos rfl] at henc
    refine ⟨_, _, hcvt, hfin, _, _, henc, hneg hlt, ?_⟩
    rw [← htop, hself]
    refine iff_of_true rfl fun h1 h2 => ?_
    subst h1 h2
    rw [customValue, if_pos ⟨rfl, rfl⟩] at hval
    split at hval <;> cases hval
  · have hfin : f32Value (ofNat 32 (pack 8 23 neg j)) = customValue E p c := by
      rw [f32Value_eq, hindex, hsign, if_pos hjlt, hval, hmag]
    have hilt : i < 2 ^ (E + p) := mod_lt _ (two_pow_pos _)
    obtain ⟨flags, henc⟩ := encode_grid (ofNat 32 (pack 8 23 neg j)) frm
      hE2 (by omega) hp23 (by omega) (by rw [hindex]; exact hjpos) (by rw [hindex]; exact hjlt) hpos
      (by rw [hindex]; exact hmag)
    rw [hsign] at henc
    have hclip : clip E p (modeOf frm) neg (i) < 2 ^ (E + p) := by
      rw [clip]
      split_ifs <;> omega
    refine ⟨_, _, hcvt, hfin, _, flags, henc, hneg hclip, ?_⟩
    rw [htrips h4, ← clip_eq_self_iff (modeOf frm) _ (by omega)]
    exact ⟨fun h => pack_inj.mp (h.trans hself.symm),
      fun h => (congrArg (pack E p _) h).trans hself⟩

theorem wrapper_round_trip (frm : ℕ) {c bits code b : ℕ} {flags flags' : Fflags}
    (hdec : cvtCustomToF32 c E p frm = some (bits, flags))
    (henc : cvtF32ToCustom (ofNat 32 bits) E p frm = some (code, flags')) (hcode : code < 2 ^ b) :
    (decodeWith E p frm c).bind (encodeWith E p (2 ^ b - 1) frm) = some code := by
  rw [decodeWith, hdec, map_some, bind_some, encodeWith, henc, map_some,
    and_two_pow_sub_one_eq_mod, mod_eq_of_lt hcode]

/-- For every format within binary32, rounding mode and code that is not NaN, the decoded number is
exact, and it is encoded to the same code exactly if `RoundTrips` holds; and so through the
wrappers. -/
theorem round_trip_iff (E p frm c : ℕ) (hE : 2 ≤ E ∧ E ≤ 8) (hp : 1 ≤ p ∧ p ≤ 23)
    (hc : c < 2 ^ (1 + E + p)) (hnan : customValue E p c ≠ .nan) :
    (∃ bits flags, cvtCustomToF32 c E p frm = some (bits, flags) ∧
      f32Value (ofNat 32 bits) = customValue E p c ∧
      ((∃ flags', cvtF32ToCustom (ofNat 32 bits) E p frm = some (c, flags')) ↔
        RoundTrips E p frm c)) ∧
    (E = 4 → p = 3 →
      ((f8e4m3ToF32 frm c).bind (f32ToF8e4m3 frm) = some c ↔ RoundTrips E p frm c)) ∧
    (E = 5 → p = 2 → (f8e5m2ToF32 frm c).bind (f32ToF8e5m2 frm) = some c) ∧
    (E = 8 → p = 10 → (tf32ToF32 frm c).bind (f32ToTf32 frm) = some c) := by
  obtain ⟨bits, flags, hdec, hval, code, flags', henc, hlt, hcode⟩ :=
    decode_encode frm ⟨hE.1, hE.2, hp.1, hp.2⟩ hc hnan
  refine ⟨⟨bits, flags, hdec, hval, ?_⟩, ?_, ?_, ?_⟩
  · rw [← hcode, henc]
    simp
  · rintro rfl rfl
    have h := wrapper_round_trip (b := 8) frm hdec henc hlt
    have hwrap : (f8e4m3ToF32 frm c).bind (f32ToF8e4m3 frm) = some code := h
    rw [hwrap, some_inj]
    exact hcode
  · rintro rfl rfl
    have h := wrapper_round_trip (b := 8) frm hdec henc hlt
    rw [hcode.mpr (fun h => absurd h (by norm_num))] at h
    exact h
  · rintro rfl rfl
    have h := wrapper_round_trip (b := 32) frm hdec henc (lt_of_lt_of_le hlt (by norm_num))
    rw [hcode.mpr (fun h => absurd h (by norm_num))] at h
    exact h

end There

/-- The largest number of e4m3 below its last binade, `240`. -/
theorem round_trip_iff_max :
    RoundTrips 4 3 1 0x77 ∧ (f8e4m3ToF32 1 0x77).bind (f32ToF8e4m3 1) = some 0x77 :=
  have h : RoundTrips 4 3 1 0x77 := by decide
  ⟨h, ((round_trip_iff 4 3 1 0x77 (by decide) (by decide) (by decide) (by decide +kernel)).2.1 rfl
      rfl).mpr h⟩

/-- The code `0x7e` of e4m3 is decoded to `448`, and this is encoded as the pattern `0x78`. -/
theorem e4m3_last_binade_lost :
    customValue 4 3 0x7e = .finite false 448 ∧ f8e4m3ToF32 0 0x7e = some 0x43e00000#32 ∧
      f32ToF8e4m3 0 0x43e00000#32 = some 0x78 := by
  refine ⟨by decide +kernel, by decide +kernel, by decide +kernel⟩

end VortexGpu.SoftFloat

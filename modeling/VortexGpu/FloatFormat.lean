import VortexGpu.DyadicRounding

/-!
# Binary floating-point formats

A format has `E` exponent and `p` fraction bits. The codes without their sign bit are indices of a
grid of magnitudes: adding one to an index is stepping to the next number, from the subnormal
numbers through all binades. The grid goes on above the last binade.
-/

namespace FloatFormat

open DyadicRounding Nat

def steps (p c : ℕ) : ℕ := if c < 2 ^ p then c else (2 ^ p + c % 2 ^ p) * 2 ^ (c / 2 ^ p - 1)

def emin (E : ℕ) : ℤ := 2 - 2 ^ (E - 1)

def magnitude (E p c : ℕ) : ℚ := steps p c * 2 ^ (emin E - p)

/-- The significand of `p + 1` bits of the magnitude with index `i`, its leading one at bit `p`. -/
def significand (p i : ℕ) : ℕ := if i < 2 ^ p then i * 2 ^ (p - log2 i) else 2 ^ p + i % 2 ^ p

def leadExponent (E p i : ℕ) : ℤ :=
  if i < 2 ^ p then log2 i + emin E - p else (i / 2 ^ p : ℕ) + emin E - 1

def infIndex (E p : ℕ) : ℕ := (2 ^ E - 1) * 2 ^ p

inductive FloatValue
  | nan
  | inf (neg : Bool)
  | finite (neg : Bool) (mag : ℚ)
deriving DecidableEq

def ieeeValue (E p code : ℕ) : FloatValue :=
  let neg := decide (code / 2 ^ (E + p) % 2 = 1)
  let i := code % 2 ^ (E + p)
  if i < infIndex E p then .finite neg (magnitude E p i)
  else if i = infIndex E p then .inf neg else .nan

def pack (E p : ℕ) (neg : Bool) (i : ℕ) : ℕ := neg.toNat * 2 ^ (E + p) + i

def overflowsToInf (mode : Mode) (neg : Bool) : Bool :=
  match mode with
  | .rne => true
  | .rmm => true
  | .rtz => false
  | .rup => !neg
  | .rdn => neg

def clip (E p : ℕ) (mode : Mode) (neg : Bool) (r : ℕ) : ℕ :=
  if r < infIndex E p then r else if overflowsToInf mode neg then infIndex E p else infIndex E p - 1

/-- The code is the correct rounding of a value that is not NaN. -/
def Correct (E p : ℕ) (mode : Mode) (v : FloatValue) (code : ℕ) : Prop :=
  match v with
  | .nan => False
  | .inf neg => code = pack E p neg (infIndex E p)
  | .finite neg a => ∃ r,
    Rounded (magnitude E p) mode neg a r ∧ code = pack E p neg (clip E p mode neg r)

section Grid

variable {E p : ℕ}

theorem steps_line {e k : ℕ} (hk : k ≤ 2 ^ (p + 1)) (hnorm : e = 0 ∨ 2 ^ p ≤ k) :
    steps p (e * 2 ^ p + k) = k * 2 ^ e := by
  have hpos := Nat.two_pow_pos p
  rcases lt_or_ge k (2 ^ p) with hlt | hge
  · have he : e = 0 := by omega
    subst he
    simp [steps, hlt]
  have hnot : ¬ e * 2 ^ p + k < 2 ^ p := by omega
  rcases lt_or_eq_of_le hk with hlt | rfl
  · have hc : e * 2 ^ p + k = (k - 2 ^ p) + 2 ^ p * (e + 1) := by
      rw [mul_succ, mul_comm]
      omega
    have hdiv : (e * 2 ^ p + k) / 2 ^ p = e + 1 := by
      rw [hc, add_mul_div_left _ _ hpos, div_eq_of_lt (by omega), zero_add]
    have hmod : (e * 2 ^ p + k) % 2 ^ p = k - 2 ^ p := by
      rw [hc, add_mul_mod_self_left, mod_eq_of_lt (by omega)]
    rw [steps, if_neg hnot, hdiv, hmod, Nat.add_sub_cancel, Nat.add_sub_cancel' hge]
  · have hc : e * 2 ^ p + 2 ^ (p + 1) = 2 ^ p * (e + 2) := by ring
    rw [steps, if_neg hnot, hc, mul_mod_right, Nat.mul_div_cancel_left _ hpos]
    rw [show e + 2 - 1 = e + 1 by omega]
    ring

theorem exists_line (p c : ℕ) :
    ∃ e k, c = e * 2 ^ p + k ∧ k < 2 ^ (p + 1) ∧ (e = 0 ∨ 2 ^ p ≤ k) := by
  have hpos := Nat.two_pow_pos p
  rcases lt_or_ge c (2 ^ p) with hlt | hge
  · exact ⟨0, c, by omega, by omega, .inl rfl⟩
  have hdm := div_add_mod c (2 ^ p)
  have hone : 1 ≤ c / 2 ^ p := (Nat.one_le_div_iff hpos).mpr hge
  refine ⟨c / 2 ^ p - 1, 2 ^ p + c % 2 ^ p, ?_, by omega, .inr (by omega)⟩
  have hmul : (c / 2 ^ p - 1) * 2 ^ p + 2 ^ p = 2 ^ p * (c / 2 ^ p) := by
    rw [← succ_mul, succ_eq_add_one, Nat.sub_add_cancel hone, mul_comm]
  omega

theorem steps_strictMono (p : ℕ) : StrictMono (steps p) := by
  apply strictMono_nat_of_lt_succ
  intro c
  obtain ⟨e, k, rfl, hk, hnorm⟩ := exists_line p c
  rw [add_assoc, steps_line hk.le hnorm, steps_line hk (hnorm.imp_right fun h => by omega)]
  exact Nat.mul_lt_mul_of_pos_right (lt_succ_self k) (Nat.two_pow_pos e)

theorem magnitude_strictMono (E p : ℕ) : StrictMono (magnitude E p) := by
  intro a b hab
  have hsteps : (steps p a : ℚ) < steps p b := by exact_mod_cast steps_strictMono p hab
  exact mul_lt_mul_of_pos_right hsteps (by positivity)

theorem magnitude_line {e k : ℕ} (hk : k ≤ 2 ^ (p + 1)) (hnorm : e = 0 ∨ 2 ^ p ≤ k) :
    magnitude E p (e * 2 ^ p + k) = k * 2 ^ (emin E - p + e) := by
  rw [magnitude, steps_line hk hnorm, zpow_add₀ (by norm_num)]
  push_cast
  rw [zpow_natCast]
  ring

theorem log2_lt_of_lt {i : ℕ} (hi : 0 < i) (hlt : i < 2 ^ p) : log2 i < p := by
  rw [log2_lt (by omega)]
  exact hlt

theorem significand_bounds {i : ℕ} (hi : 0 < i) :
    2 ^ p ≤ significand p i ∧ significand p i < 2 ^ (p + 1) := by
  rw [significand]
  split
  · rename_i hlt
    have hlog := log2_lt_of_lt hi hlt
    have hlo := log2_self_le (show i ≠ 0 by omega)
    have hhi := lt_log2_self (n := i)
    have h1 : 2 ^ log2 i * 2 ^ (p - log2 i) = 2 ^ p := by
      rw [← pow_add]
      congr 1
      omega
    have h2 : 2 ^ (log2 i + 1) * 2 ^ (p - log2 i) = 2 ^ (p + 1) := by
      rw [← pow_add]
      congr 1
      omega
    rw [← h1, ← h2]
    exact ⟨Nat.mul_le_mul_right _ hlo, Nat.mul_lt_mul_of_pos_right hhi (Nat.two_pow_pos _)⟩
  · have := mod_lt i (Nat.two_pow_pos p)
    omega

theorem magnitude_eq {i : ℕ} (hi : 0 < i) :
    magnitude E p i = significand p i * 2 ^ (leadExponent E p i - p) := by
  have hppos := Nat.two_pow_pos p
  by_cases hlt : i < 2 ^ p
  · have hlog := log2_lt_of_lt hi hlt
    have hline := magnitude_line (E := E) (p := p) (e := 0) (k := i) (by omega) (.inl rfl)
    rw [zero_mul, zero_add] at hline
    rw [hline, significand, leadExponent, if_pos hlt, if_pos hlt]
    push_cast
    rw [mul_assoc, ← zpow_natCast, ← zpow_add₀ (by norm_num)]
    congr 2
    omega
  · have hsig := mod_lt i hppos
    have hdm := div_add_mod i (2 ^ p)
    have hone := (Nat.one_le_div_iff hppos).mpr (not_lt.mp hlt)
    have hline :=
      magnitude_line (E := E) (p := p) (e := i / 2 ^ p - 1) (k := 2 ^ p + i % 2 ^ p) (by omega)
      (.inr (by omega))
    have hmul : (i / 2 ^ p - 1) * 2 ^ p + 2 ^ p = 2 ^ p * (i / 2 ^ p) := by
      rw [← succ_mul, succ_eq_add_one, Nat.sub_add_cancel hone, mul_comm]
    rw [show (i / 2 ^ p - 1) * 2 ^ p + (2 ^ p + i % 2 ^ p) = i by omega] at hline
    rw [hline, significand, leadExponent, if_neg hlt, if_neg hlt]
    congr 2
    omega

end Grid

section Codes

variable {E p i : ℕ}

theorem infIndex_lt (E p : ℕ) : infIndex E p < 2 ^ (E + p) := by
  rw [infIndex, pow_add]
  exact Nat.mul_lt_mul_of_pos_right (sub_lt (Nat.two_pow_pos E) (by norm_num)) (Nat.two_pow_pos p)

theorem pack_fields (neg : Bool) (hi : i < 2 ^ (E + p)) :
    pack E p neg i / 2 ^ (E + p) % 2 = neg.toNat ∧ pack E p neg i % 2 ^ (E + p) = i := by
  have hb := Bool.toNat_le neg
  rw [pack, mul_comm, mul_add_div (Nat.two_pow_pos _), mul_add_mod, div_eq_of_lt hi,
    mod_eq_of_lt hi]
  exact ⟨mod_eq_of_lt (by omega), rfl⟩

theorem ieeeValue_pack (neg : Bool) (hi : i < 2 ^ (E + p)) : ieeeValue E p (pack E p neg i) =
      if i < infIndex E p then .finite neg (magnitude E p i)
      else if i = infIndex E p then .inf neg else .nan := by
  obtain ⟨hsign, hindex⟩ := pack_fields (E := E) (p := p) neg hi
  have hneg : decide (neg.toNat = 1) = neg := by cases neg <;> rfl
  simp only [ieeeValue, hsign, hindex, hneg]

theorem pack_inj {neg : Bool} {j : ℕ} : pack E p neg i = pack E p neg j ↔ i = j := by
  simp [pack]

theorem clip_of_lt {mode : Mode} {neg : Bool} {r : ℕ} (h : r < infIndex E p) :
    clip E p mode neg r = r := if_pos h

theorem clip_of_le {mode : Mode} {neg : Bool} {r : ℕ} (h : infIndex E p ≤ r) :
    clip E p mode neg r = if overflowsToInf mode neg then infIndex E p else infIndex E p - 1 :=
  if_neg (not_lt.mpr h)

theorem pack_self {code : ℕ} (hc : code < 2 ^ (1 + E + p)) :
    pack E p (decide (code / 2 ^ (E + p) % 2 = 1)) (code % 2 ^ (E + p)) = code := by
  have hlt : code / 2 ^ (E + p) < 2 := by
    rw [Nat.div_lt_iff_lt_mul (Nat.two_pow_pos _)]
    calc code < 2 ^ (1 + E + p) := hc
      _ = 2 * 2 ^ (E + p) := by ring
  have hdm := div_add_mod code (2 ^ (E + p))
  rw [pack, mod_eq_of_lt hlt, mul_comm]
  have hbit : (decide (code / 2 ^ (E + p) = 1)).toNat = code / 2 ^ (E + p) := by
    generalize code / 2 ^ (E + p) = q at hlt
    interval_cases q <;> rfl
  rw [hbit, hdm]

end Codes

end FloatFormat

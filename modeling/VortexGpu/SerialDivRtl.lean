import VortexGpu.RestoringDivision
import Mathlib.Data.Nat.Log

/-!
# The integer divider of the core

`VX_serial_div` divides bit by bit in one register that holds the remainder above the rest of the
dividend and the quotient. It works on magnitudes, with flags for the signs. `VX_alu_muldiv` puts an
elastic adapter around it, extends the operands of the 32-bit forms and cuts their results. The
flags are taken from bit 31 of the operands whatever their width, which is right when that bit
stands for the sign, or the sign does not matter.
-/

namespace VortexGpu.Rtl
open Bool (false_eq_true)
open Nat (div_eq_of_lt mod_eq_of_lt mod_lt two_pow_pos)
open BitVec (allOnes ofInt ofNat)
open BitVec Nat RestoringDivision Function

/-- One lane: the working register of `2 * w + 1` bits and what was loaded with it. -/
structure DivLane (w : ℕ) where
  working : ℕ
  denomR : BitVec w
  invQuot : Bool
  invRem : Bool

structure SerialDiv (w : ℕ) where
  lanes : ℕ → DivLane w
  cntr : ℕ
  busy : Bool

/-- One round on the working register: `sub_result` has a borrow bit above its `w` bits. -/
def divRound (w d x : ℕ) : ℕ :=
  let subResult := (x / 2 ^ w + 2 ^ (w + 1) - d) % 2 ^ (w + 1)
  if subResult.testBit w then 2 * x % 2 ^ (2 * w + 1)
  else subResult % 2 ^ w * 2 ^ (w + 1) + x % 2 ^ w * 2 + 1

def qualified {w : ℕ} (isSigned : Bool) (x : BitVec w) : BitVec w :=
  if isSigned && x.msb then -x else x

namespace DivLane

variable {w : ℕ}

def load (isSigned : Bool) (numer denom : BitVec w) : DivLane w where
  working := 2 * (qualified isSigned numer).toNat
  denomR := qualified isSigned denom
  invQuot := decide (denom ≠ 0#w) && isSigned && (numer.getLsbD 31 ^^ denom.getLsbD 31)
  invRem := isSigned && numer.getLsbD 31

def round (l : DivLane w) : DivLane w := { l with working := divRound w l.denomR.toNat l.working }

def quotient (l : DivLane w) : BitVec w :=
  let q := ofNat w l.working
  if l.invQuot then -q else q

def remainder (l : DivLane w) : BitVec w :=
  let r := ofNat w (l.working / 2 ^ (w + 1))
  if l.invRem then -r else r

end DivLane

namespace SerialDiv

variable {w : ℕ}

def clock (s : SerialDiv w) (strobe isSigned : Bool) (numer denom : ℕ → BitVec w) :
    SerialDiv w where
  lanes i :=
    if strobe then .load isSigned (numer i) (denom i)
    else if s.busy then (s.lanes i).round else s.lanes i
  cntr := if strobe then (w - 1) % 2 ^ clog 2 w
    else (s.cntr + 2 ^ clog 2 w - 1) % 2 ^ clog 2 w
  busy := if s.busy && decide (s.cntr = 0) then false else strobe || s.busy

end SerialDiv

structure DivOp where
  isSigned : Bool
  isRem : Bool
  isW : Bool
deriving DecidableEq, Repr

/-- What the path sees in a clock: the divide instruction on `execute_if`, if `valid`, and whether
the result would be taken. -/
structure DivInput (w : ℕ) (H : Type) where
  valid : Bool
  op : DivOp
  header : H
  rs1 : ℕ → BitVec w
  rs2 : ℕ → BitVec w
  readyOut : Bool

structure DivPath (w : ℕ) (H : Type) where
  loaded : Bool
  div : SerialDiv w
  header : H
  isRem : Bool
  isW : Bool

def divOperand {w : ℕ} (op : DivOp) (x : BitVec w) : BitVec w :=
  if op.isW then
    if op.isSigned then (x.setWidth 32).signExtend w else (x.setWidth 32).setWidth w
  else x

def divResult {w : ℕ} (isW : Bool) (x : BitVec w) : BitVec w :=
  if isW then (x.setWidth 32).signExtend w else x

namespace DivPath

variable {w : ℕ} {H : Type}

section
variable (s : DivPath w H)

def readyIn : Bool := !s.loaded

def validOut : Bool := s.loaded && !s.div.busy

def resultOut (lane : ℕ) : BitVec w :=
  divResult s.isW (if s.isRem then (s.div.lanes lane).remainder else (s.div.lanes lane).quotient)

def clock (i : DivInput w H) : DivPath w H :=
  let push := i.valid && s.readyIn
  let pop := s.validOut && i.readyOut
  { loaded := if pop then false else push || s.loaded
    div :=
      s.div.clock push i.op.isSigned (fun l => divOperand i.op (i.rs1 l))
        fun l => divOperand i.op (i.rs2 l)
    header := if push then i.header else s.header
    isRem := if push then i.op.isRem else s.isRem
    isW := if push then i.op.isW else s.isW }

def clocks (inputs : List (DivInput w H)) : DivPath w H := inputs.foldl clock s

end

end DivPath

def riscvQuotient {w : ℕ} (isSigned : Bool) (x y : BitVec w) : BitVec w :=
  if y = 0#w then allOnes w
  else if isSigned then ofInt w (x.toInt.tdiv y.toInt) else ofNat w (x.toNat / y.toNat)

def riscvRemainder {w : ℕ} (isSigned : Bool) (x y : BitVec w) : BitVec w :=
  if y = 0#w then x
  else if isSigned then ofInt w (x.toInt.tmod y.toInt) else ofNat w (x.toNat % y.toNat)

def riscvFull {w : ℕ} (op : DivOp) (x y : BitVec w) : BitVec w :=
  if op.isRem then riscvRemainder op.isSigned x y else riscvQuotient op.isSigned x y

def riscvDivide {w : ℕ} (op : DivOp) (x y : BitVec w) : BitVec w :=
  if op.isW then (riscvFull op (x.setWidth 32) (y.setWidth 32)).signExtend w else riscvFull op x y

section Loop

variable {w n d k r q x : ℕ}

def Packed (w n k r q x : ℕ) : Prop := x = r * 2 ^ (w + 1) + n % 2 ^ (w - k) * 2 ^ (k + 1) + q

theorem Packed.split (h : Packed w n k r q x) (hk : k < w) (hq : q < 2 ^ k) :
    x / 2 ^ w = 2 * r + nextBit n w k ∧ x % 2 ^ w = n % 2 ^ (w - (k + 1)) * 2 ^ (k + 1) + q := by
  have hsplit : n % 2 ^ (w - k) = nextBit n w k * 2 ^ (w - (k + 1)) + n % 2 ^ (w - (k + 1)) := by
    have hpow : 2 ^ (w - k) = 2 ^ (w - (k + 1)) * 2 := by
      rw [← pow_succ]
      congr 1
      omega
    rw [hpow, mod_mul, nextBit]
    ring
  have hw : 2 ^ (w - (k + 1)) * 2 ^ (k + 1) = 2 ^ w := by
    rw [← pow_add]
    congr 1
    omega
  have hlow : n % 2 ^ (w - (k + 1)) * 2 ^ (k + 1) + q < 2 ^ w := by
    have hm : n % 2 ^ (w - (k + 1)) + 1 ≤ 2 ^ (w - (k + 1)) := mod_lt _ (two_pow_pos _)
    have hmul := mul_le_mul_right (2 ^ (k + 1)) hm
    rw [Nat.add_mul, Nat.one_mul, hw] at hmul
    omega
  have hx : x = (n % 2 ^ (w - (k + 1)) * 2 ^ (k + 1) + q) + 2 ^ w * (2 * r + nextBit n w k) := by
    rw [h, hsplit, Nat.add_mul, Nat.mul_assoc, hw, pow_succ]
    ring
  rw [hx, Nat.add_mul_div_left _ _ (two_pow_pos w), div_eq_of_lt hlow, Nat.add_mul_mod_self_left,
    mod_eq_of_lt hlow]
  exact ⟨zero_add _, rfl⟩

theorem borrow_iff {a b : ℕ} (hb : b < 2 ^ w) (hab : a < b + 2 ^ w) :
    ((a + 2 ^ (w + 1) - b) % 2 ^ (w + 1)).testBit w = true ↔ a < b := by
  rw [testBit_eq_decide_div_mod_eq, decide_eq_true_eq]
  rcases lt_or_ge a b with hlt | hge
  · have hval : (a + 2 ^ (w + 1) - b) % 2 ^ (w + 1) = 2 ^ w * 1 + (a + 2 ^ w - b) := by
      rw [mod_eq_of_lt (by omega)]
      omega
    rw [hval, Nat.mul_add_div (two_pow_pos w), div_eq_of_lt (by omega)]
    simp [hlt]
  · have hval : (a + 2 ^ (w + 1) - b) % 2 ^ (w + 1) = a - b := by
      rw [show a + 2 ^ (w + 1) - b = a - b + 2 ^ (w + 1) by omega, add_mod_right]
      exact mod_eq_of_lt (by omega)
    rw [hval, div_eq_of_lt (by omega)]
    simp [hge]

theorem divRound_rounds (hd : d < 2 ^ w) (hk : k < w) (hn : n < 2 ^ w) (h : Rounds n d w k r q)
    (hx : Packed w n k r q x) :
    ∃ r' q', Rounds n d w (k + 1) r' q' ∧ Packed w n (k + 1) r' q' (divRound w d x) := by
  obtain ⟨hhigh, hlow⟩ := hx.split hk h.fits
  have hbit : nextBit n w k < 2 := mod_lt _ (by norm_num)
  have hbound : 2 * r + nextBit n w k < d + 2 ^ w := by
    rcases Nat.eq_zero_or_pos d with rfl | hpos
    · -- without a divisor the remainder is the leading part of the dividend
      have hr : r = n / 2 ^ (w - k) := by simpa using h.split.symm
      have hlead := leading_succ (n := n) hk
      have hsmall : n / 2 ^ (w - (k + 1)) < 2 ^ w := lt_of_le_of_lt (div_le_self _ _) hn
      omega
    · have := h.small hpos
      omega
  have hborrow := borrow_iff hd hbound
  have hpow : 2 ^ (w + 1) = 2 * 2 ^ w := by ring
  by_cases hlt : 2 * r + nextBit n w k < d
  · refine ⟨_, _, h.keep hk hlt, ?_⟩
    simp only [divRound, hhigh]
    rw [if_pos (hborrow.mpr hlt), Packed]
    have hx2 : 2 * x = (2 * r + nextBit n w k) * 2 ^ (w + 1) +
        n % 2 ^ (w - (k + 1)) * 2 ^ (k + 1 + 1) + 2 * q := by
      have hdm := div_add_mod x (2 ^ w)
      rw [hhigh, hlow] at hdm
      rw [← hdm, pow_succ 2 (k + 1), hpow]
      ring
    rw [← hx2]
    apply mod_eq_of_lt
    have hdm := div_add_mod x (2 ^ w)
    rw [hhigh] at hdm
    have hmul : 2 ^ w * (2 * r + nextBit n w k) + 2 ^ w ≤ 2 ^ w * 2 ^ w := by
      rw [← Nat.mul_succ]
      exact mul_le_mul_left _ (by omega)
    have hsq : 2 ^ (2 * w + 1) = 2 * (2 ^ w * 2 ^ w) := by
      rw [← pow_add]
      ring
    omega
  · refine ⟨_, _, h.subtract hk (not_lt.mp hlt), ?_⟩
    simp only [divRound, hhigh]
    rw [if_neg (fun hb => hlt (hborrow.mp hb)), hlow, Packed]
    have hsub : (2 * r + nextBit n w k + 2 ^ (w + 1) - d) % 2 ^ (w + 1) % 2 ^ w =
        2 * r + nextBit n w k - d := by
      rw [show 2 * r + nextBit n w k + 2 ^ (w + 1) - d =
        2 * r + nextBit n w k - d + 2 ^ (w + 1) by omega,
        add_mod_right, mod_eq_of_lt (show 2 * r + nextBit n w k - d < 2 ^ (w + 1) by omega),
        mod_eq_of_lt (by omega)]
    rw [hsub, pow_succ 2 (k + 1)]
    ring

end Loop

namespace DivLane

variable {w : ℕ}

theorem iterate_round (l : DivLane w) (k : ℕ) :
    (round^[k] l).denomR = l.denomR ∧ (round^[k] l).invQuot = l.invQuot ∧
    (round^[k] l).invRem = l.invRem := by
  induction k with
  | zero => exact ⟨rfl, rfl, rfl⟩
  | succ k ih =>
    rw [iterate_succ_apply']
    exact ih

theorem iterate_load (isSigned : Bool) (numer denom : BitVec w) {k : ℕ} (hk : k ≤ w) :
    ∃ r q, Rounds (qualified isSigned numer).toNat (qualified isSigned denom).toNat w k r q ∧
      Packed w (qualified isSigned numer).toNat k r q
        (round^[k] (load isSigned numer denom)).working := by
  induction k with
  | zero =>
    refine ⟨0, 0, .start (isLt _), ?_⟩
    rw [Packed, Nat.sub_zero, mod_eq_of_lt (isLt _), iterate_zero_apply, load]
    ring
  | succ k ih =>
    obtain ⟨r, q, hr, hp⟩ := ih (by omega)
    rw [iterate_succ_apply', round, (iterate_round _ k).1]
    exact divRound_rounds (isLt _) (by omega) (isLt _) hr hp

theorem iterate_load_finished (isSigned : Bool) (numer denom : BitVec w) :
    let l := round^[w] (load isSigned numer denom)
    let n := (qualified isSigned numer).toNat
    let d := (qualified isSigned denom).toNat
    ofNat w l.working = ofNat w (if d = 0 then 2 ^ w - 1 else n / d) ∧
      ofNat w (l.working / 2 ^ (w + 1)) = ofNat w (n % d) := by
  obtain ⟨r, q, hr, hp⟩ := iterate_load isSigned numer denom (le_refl w)
  obtain ⟨hq, hrem⟩ := hr.finished
  have hfits := hr.fits
  have hx : (round^[w] (load isSigned numer denom)).working = q + 2 ^ (w + 1) * r := by
    rw [hp, Nat.sub_self, pow_zero, Nat.mod_one]
    ring
  have hpow : 2 ^ (w + 1) = 2 ^ w * 2 := pow_succ 2 w
  simp only [hx]
  refine ⟨?_, ?_⟩
  · rw [← hq]
    apply eq_of_toNat_eq
    rw [toNat_ofNat, toNat_ofNat, hpow, mul_assoc, Nat.add_mul_mod_self_left]
  · rw [Nat.add_mul_div_left _ _ (two_pow_pos _), div_eq_of_lt (by omega), zero_add, hrem]

end DivLane

section Signs

variable {w : ℕ} {x y : BitVec w}

theorem two_pow_eq_double (hw : 0 < w) : 2 ^ w = 2 * 2 ^ (w - 1) := by
  rw [← pow_succ']
  congr 1
  omega

theorem qualified_toNat (hw : 0 < w) (isSigned : Bool) (x : BitVec w) :
    (qualified isSigned x).toNat = if isSigned then x.toInt.natAbs else x.toNat := by
  cases isSigned with
  | false => rfl
  | true =>
    simp only [qualified, Bool.true_and, ite_true]
    have hlt := x.isLt
    have hpow := two_pow_eq_double hw
    rw [toInt_eq_msb_cond]
    cases hm : x.msb with
    | false => simp
    | true =>
      have hge := msb_eq_true_iff_two_mul_ge.mp hm
      simp only [ite_true, toNat_neg]
      rw [mod_eq_of_lt (by omega)]
      omega

def withSign (negative : Bool) (v : BitVec w) : BitVec w := if negative then -v else v

theorem neg_eq_self_iff (hw : 0 < w) (v : BitVec w) :
    -v = v ↔ v = 0#w ∨ v.toNat = 2 ^ (w - 1) := by
  have hpow := two_pow_eq_double hw
  have hlt := v.isLt
  rw [← toNat_inj, toNat_neg, ← toNat_inj]
  rcases Nat.eq_zero_or_pos v.toNat with h0 | hpos
  · simp [h0]
  · rw [mod_eq_of_lt (by omega)]
    simp only [toNat_ofNat, zero_mod]
    omega

theorem withSign_eq_iff (hw : 0 < w) (a b : Bool) (v : BitVec w) :
    withSign a v = withSign b v ↔ a = b ∨ v = 0#w ∨ v.toNat = 2 ^ (w - 1) := by
  have hneg := neg_eq_self_iff hw v
  cases a <;> cases b <;> simp only [withSign, ite_true, ite_false, false_eq_true, reduceCtorEq,
    false_or, true_or]
  · rw [← hneg, eq_comm]
  · exact hneg

theorem riscvQuotient_signed (hy : y ≠ 0#w) : riscvQuotient true x y =
    withSign (x.msb ^^ y.msb) (qualified true x / qualified true y) := by
  have hdiv : ofInt w (x.toInt.tdiv y.toInt) = x.sdiv y := by
    apply eq_of_toInt_eq
    rw [toInt_ofInt, toInt_sdiv]
  simp only [riscvQuotient, if_neg hy, ite_true, hdiv, sdiv_eq]
  cases hx : x.msb <;> cases hy' : y.msb <;> simp [withSign, qualified, hx, hy']

theorem riscvRemainder_signed (hy : y ≠ 0#w) : riscvRemainder true x y =
    withSign x.msb (qualified true x % qualified true y) := by
  have hrem : ofInt w (x.toInt.tmod y.toInt) = x.srem y := by
    apply eq_of_toInt_eq
    rw [toInt_ofInt, ← toInt_srem]
    exact toInt_bmod_cancel _
  simp only [riscvRemainder, if_neg hy, ite_true, hrem, srem_eq]
  cases hx : x.msb <;> cases hy' : y.msb <;> simp [withSign, qualified, hx, hy']

theorem natAbs_toInt_le (hw : 0 < w) (x : BitVec w) : x.toInt.natAbs ≤ 2 ^ (w - 1) := by
  have hpow := two_pow_eq_double hw
  have hlo := two_mul_toInt_lt (x := x)
  have hhi := le_two_mul_toInt (x := x)
  have hcast : ((2 : ℤ) ^ w) = 2 * ((2 ^ (w - 1) : ℕ) : ℤ) := by
    rw [← Nat.cast_ofNat (n := 2), ← Nat.cast_pow, hpow]
    push_cast
    rfl
  omega

theorem natAbs_toInt_pos (hy : y ≠ 0#w) : 0 < y.toInt.natAbs := by
  rw [Int.natAbs_pos]
  intro h
  exact hy (eq_of_toInt_eq (by simpa using h))

theorem qualified_eq_zero_iff (isSigned : Bool) (x : BitVec w) :
    qualified isSigned x = 0#w ↔ x = 0#w := by
  rw [qualified]
  split
  · exact neg_eq_zero_iff
  · exact Iff.rfl

/-- What the divider needs of its sign flags for a quotient: no sign is needed, the two bits differ
as the signs do, or the magnitude of the quotient is its own negative. -/
def QuotientSign (x y : BitVec w) : Prop :=
  y = 0#w ∨ (x.getLsbD 31 ^^ y.getLsbD 31) = (x.msb ^^ y.msb) ∨
    x.toInt.natAbs < y.toInt.natAbs ∨
    (x.toInt.natAbs = 2 ^ (w - 1) ∧ y.toInt.natAbs = 1)

instance (x y : BitVec w) : Decidable (QuotientSign x y) := by
  unfold QuotientSign
  infer_instance

def RemainderSign (x y : BitVec w) : Prop :=
  x.getLsbD 31 = x.msb ∨ (y ≠ 0#w ∧ y.toInt ∣ x.toInt) ∨
    (y = 0#w ∧ x.toInt.natAbs = 2 ^ (w - 1))

instance (x y : BitVec w) : Decidable (RemainderSign x y) := by
  unfold RemainderSign
  infer_instance

theorem div_eq_half_iff {n d : ℕ} (hn : n ≤ 2 ^ (w - 1)) (hd : 0 < d) :
    n / d = 2 ^ (w - 1) ↔ n = 2 ^ (w - 1) ∧ d = 1 := by
  have hpos := two_pow_pos (w - 1)
  constructor
  · intro h
    have hle := div_mul_le_self n d
    rw [h] at hle
    have hd1 : d = 1 := by
      by_contra hne
      have hmul : 2 ^ (w - 1) * 2 ≤ 2 ^ (w - 1) * d := mul_le_mul_left _ (by omega)
      omega
    subst hd1
    exact ⟨by omega, rfl⟩
  · rintro ⟨rfl, rfl⟩
    exact Nat.div_one _

theorem DivLane.quotient_eq (isSigned : Bool) (x y : BitVec w) (hy : y ≠ 0#w) :
    (round^[w] (load isSigned x y)).quotient =
      withSign (isSigned &&
        (x.getLsbD 31 ^^ y.getLsbD 31)) (qualified isSigned x / qualified isSigned y) := by
  have hd : (qualified isSigned y).toNat ≠ 0 := by
    intro h
    exact hy ((qualified_eq_zero_iff isSigned y).mp (eq_of_toNat_eq (by simpa using h)))
  have hinv : (round^[w] (load isSigned x y)).invQuot =
      (isSigned && (x.getLsbD 31 ^^ y.getLsbD 31)) := by
    rw [(iterate_round _ w).2.1, load]
    simp [hy]
  have hq := (iterate_load_finished isSigned x y).1
  simp only [if_neg hd] at hq
  rw [quotient, hinv, hq, ← udiv_def, withSign]

theorem DivLane.quotient_zero (isSigned : Bool) (x : BitVec w) :
    (round^[w] (load isSigned x 0#w)).quotient = allOnes w := by
  have hinv : (round^[w] (load isSigned x 0#w)).invQuot = false := by
    rw [(iterate_round _ w).2.1, load]
    simp
  have hd : (qualified isSigned 0#w).toNat = 0 := by
    rw [(qualified_eq_zero_iff isSigned 0#w).mpr rfl]
    rfl
  have hq := (iterate_load_finished isSigned x 0#w).1
  simp only [if_pos hd] at hq
  rw [quotient, hinv, hq]
  apply eq_of_toNat_eq
  simp

theorem DivLane.remainder_eq (isSigned : Bool) (x y : BitVec w) :
    (round^[w] (load isSigned x y)).remainder =
      withSign (isSigned && x.getLsbD 31) (qualified isSigned x % qualified isSigned y) := by
  have hinv : (round^[w] (load isSigned x y)).invRem = (isSigned && x.getLsbD 31) :=
    (iterate_round _ w).2.2
  have hr := (iterate_load_finished isSigned x y).2
  rw [remainder, hinv, hr, ← umod_def, withSign]

theorem riscvQuotient_unsigned (hy : y ≠ 0#w) : riscvQuotient false x y = x / y := by
  simp only [riscvQuotient, if_neg hy, false_eq_true, ite_false, udiv_def]

theorem riscvRemainder_unsigned : riscvRemainder false x y = x % y := by
  simp only [riscvRemainder, false_eq_true, ite_false]
  split
  · rename_i hy
    rw [hy]
    exact (umod_zero (x := x)).symm
  · exact umod_def.symm

theorem riscvRemainder_signed_all (x y : BitVec w) : riscvRemainder true x y =
    withSign x.msb (qualified true x % qualified true y) := by
  by_cases hy : y = 0#w
  · subst hy
    rw [(qualified_eq_zero_iff true 0#w).mpr rfl, umod_zero]
    simp only [riscvRemainder, ite_true, withSign, qualified, Bool.true_and]
    split <;> simp
  · exact riscvRemainder_signed hy

theorem DivLane.quotient_iff (hw : 0 < w) (isSigned : Bool) (x y : BitVec w) :
    (round^[w] (load isSigned x y)).quotient = riscvQuotient isSigned x y ↔
      (isSigned = true → QuotientSign x y) := by
  by_cases hy : y = 0#w
  · subst hy
    simp [DivLane.quotient_zero, riscvQuotient, QuotientSign]
  rw [DivLane.quotient_eq isSigned x y hy]
  cases isSigned with
  | false =>
    rw [riscvQuotient_unsigned hy]
    simp [withSign, qualified]
  | true =>
    have hd := natAbs_toInt_pos hy
    rw [riscvQuotient_signed hy, withSign_eq_iff hw, ← toNat_inj, toNat_udiv,
      qualified_toNat hw, qualified_toNat hw, if_pos rfl, if_pos rfl,
      div_eq_half_iff (natAbs_toInt_le hw x) hd]
    simp [QuotientSign, hy, ne_of_gt hd]

theorem DivLane.remainder_iff (hw : 0 < w) (isSigned : Bool) (x y : BitVec w) :
    (round^[w] (load isSigned x y)).remainder = riscvRemainder isSigned x y ↔
      (isSigned = true → RemainderSign x y) := by
  rw [DivLane.remainder_eq isSigned x y]
  cases isSigned with
  | false =>
    rw [riscvRemainder_unsigned]
    simp [withSign, qualified]
  | true =>
    rw [riscvRemainder_signed_all, withSign_eq_iff hw, ← toNat_inj, toNat_umod,
      qualified_toNat hw, qualified_toNat hw, if_pos rfl, if_pos rfl, RemainderSign]
    by_cases hy : y = 0#w
    · subst hy
      have hzero : x.toInt.natAbs = 0 → x.getLsbD 31 = x.msb := by
        intro h0
        have hx : x = 0#w := eq_of_toInt_eq (by simpa using h0)
        simp [hx]
      simp only [toInt_zero, Int.natAbs_zero, mod_zero, toNat_ofNat, zero_mod, ne_eq,
        not_true_eq_false, false_and, true_and, false_or, Bool.true_and, forall_const]
      tauto
    · have hd : 0 < y.toInt.natAbs := natAbs_toInt_pos hy
      have hlt := mod_lt x.toInt.natAbs hd
      have hle := natAbs_toInt_le hw y
      have hne : x.toInt.natAbs % y.toInt.natAbs ≠ 2 ^ (w - 1) := by omega
      simp [hne, hy, toNat_ofNat, ← dvd_iff_mod_eq_zero, Int.natAbs_dvd_natAbs, forall_const]

end Signs

section Words

variable {w : ℕ} {a b : BitVec 32}

section
variable (hw : 32 ≤ w)
include hw

theorem ofInt_setWidth (i : ℤ) : (ofInt w i).setWidth 32 = ofInt 32 i := by
  apply eq_of_toInt_eq
  have hdvd : ((2 ^ 32 : ℕ) : ℤ) ∣ ((2 ^ w : ℕ) : ℤ) :=
    Int.natCast_dvd_natCast.mpr (pow_dvd_pow 2 hw)
  have hpos : (0 : ℤ) ≤ i % ((2 ^ w : ℕ) : ℤ) :=
    Int.emod_nonneg _ (by exact_mod_cast (two_pow_pos w).ne')
  rw [toInt_setWidth, toInt_ofInt, toNat_ofInt, Int.toNat_of_nonneg hpos,
    ← Int.emod_bmod, Int.emod_emod_of_dvd _ hdvd, Int.emod_bmod]

theorem allOnes_setWidth : (allOnes w).setWidth 32 = allOnes 32 := by
  ext i hi
  rw [getElem_setWidth, getLsbD_allOnes, getElem_allOnes]
  exact decide_eq_true (by omega)

theorem signExtend_setWidth : (a.signExtend w).setWidth 32 = a := by
  ext i hi
  rw [getElem_setWidth, getLsbD_signExtend, if_pos hi, getLsbD_eq_getElem hi,
    decide_eq_true (show i < w by omega), Bool.true_and]

theorem signExtend_sign : (a.signExtend w).getLsbD 31 = (a.signExtend w).msb := by
  rw [msb_eq_getLsbD_last, getLsbD_signExtend, getLsbD_signExtend, if_pos (by norm_num),
    decide_eq_true (show 31 < w by omega), decide_eq_true (show w - 1 < w by omega),
    msb_eq_getLsbD_last]
  split
  · rw [show w - 1 = 31 by omega]
  · rfl

theorem signExtend_eq_zero_iff : a.signExtend w = 0#w ↔ a = 0#32 := by
  rw [← toInt_inj, ← toInt_inj, toInt_signExtend_of_le hw]
  simp

theorem setWidth_eq_zero_iff : a.setWidth w = 0#w ↔ a = 0#32 := by
  rw [← toNat_inj, ← toNat_inj, toNat_setWidth_of_le hw]
  simp

theorem riscvQuotient_signExtend :
    (riscvQuotient true (a.signExtend w) (b.signExtend w)).setWidth 32 =
      riscvQuotient true a b := by
  simp only [riscvQuotient, signExtend_eq_zero_iff hw, toInt_signExtend_of_le hw, ite_true]
  split
  · exact allOnes_setWidth hw
  · exact ofInt_setWidth hw _

theorem riscvRemainder_signExtend :
    (riscvRemainder true (a.signExtend w) (b.signExtend w)).setWidth 32 =
      riscvRemainder true a b := by
  simp only [riscvRemainder, signExtend_eq_zero_iff hw, toInt_signExtend_of_le hw, ite_true]
  split
  · exact signExtend_setWidth hw
  · exact ofInt_setWidth hw _

theorem riscvQuotient_setWidth :
    (riscvQuotient false (a.setWidth w) (b.setWidth w)).setWidth 32 = riscvQuotient false a b := by
  simp only [riscvQuotient, setWidth_eq_zero_iff hw, toNat_setWidth_of_le hw, false_eq_true,
    ite_false]
  split
  · exact allOnes_setWidth hw
  · exact setWidth_ofNat_of_le hw _

theorem riscvRemainder_setWidth :
    (riscvRemainder false (a.setWidth w) (b.setWidth w)).setWidth 32 =
      riscvRemainder false a b := by
  simp only [riscvRemainder, setWidth_eq_zero_iff hw, toNat_setWidth_of_le hw, false_eq_true,
    ite_false]
  split
  · simp [hw]
  · exact setWidth_ofNat_of_le hw _

end

end Words

def SignBits {w : ℕ} (op : DivOp) (x y : BitVec w) : Prop :=
  op.isSigned = true → op.isW = false → if op.isRem then RemainderSign x y else QuotientSign x y

instance {w : ℕ} (op : DivOp) (x y : BitVec w) : Decidable (SignBits op x y) := by
  unfold SignBits
  infer_instance

theorem lane_result_iff {w : ℕ} (hw : 32 ≤ w) (op : DivOp) (x y : BitVec w) :
    let l := DivLane.round^[w] (.load op.isSigned (divOperand op x) (divOperand op y))
    divResult op.isW (if op.isRem then l.remainder else l.quotient) = riscvDivide op x y ↔
    SignBits op x y := by
  have hq := fun a b : BitVec w => DivLane.quotient_iff (by omega) op.isSigned a b
  have hr := fun a b : BitVec w => DivLane.remainder_iff (by omega) op.isSigned a b
  obtain ⟨isSigned, isRem, isW⟩ := op
  cases isW with
  | false =>
    cases isRem with
    | false => simpa [divResult, riscvDivide, riscvFull, SignBits, divOperand] using hq x y
    | true => simpa [divResult, riscvDivide, riscvFull, SignBits, divOperand] using hr x y
  | true =>
    -- the flags of an extended word are right, so the full-width results are
    have hsigns : SignBits ⟨isSigned, isRem, true⟩ x y := fun _ h => absurd h (by simp)
    refine iff_of_true ?_ hsigns
    simp only [divResult, riscvDivide, riscvFull, divOperand, ite_true]
    congr 1
    cases isSigned with
    | false =>
      cases isRem with
      | false =>
        simp only [false_eq_true, ite_false]
        rw [(hq _ _).mpr (by simp)]
        exact riscvQuotient_setWidth hw
      | true =>
        simp only [false_eq_true, ite_false, ite_true]
        rw [(hr _ _).mpr (by simp)]
        exact riscvRemainder_setWidth hw
    | true =>
      cases isRem with
      | false =>
        simp only [false_eq_true, ite_false, ite_true]
        rw [(hq _ _).mpr (fun _ => .inr (.inl (by rw [signExtend_sign hw, signExtend_sign hw])))]
        exact riscvQuotient_signExtend hw
      | true =>
        simp only [ite_true]
        rw [(hr _ _).mpr (fun _ => .inl (signExtend_sign hw))]
        exact riscvRemainder_signExtend hw

namespace DivPath

variable {w : ℕ} {H : Type}

def Idle (s : DivPath w H) : Prop := s.loaded = false → s.div.busy = false

variable {s : DivPath w H} {i : DivInput w H}

theorem idle_clock (h : s.Idle) (i : DivInput w H) : (s.clock i).Idle := by
  intro hl
  have hbusy : s.div.busy = false ∧ (i.valid && s.readyIn) = false := by
    simp only [clock, readyIn, validOut] at hl ⊢
    cases hload : s.loaded with
    | false =>
      simp only [hload, Bool.false_and, false_eq_true, ite_false, Bool.or_false] at hl
      exact ⟨h hload, hl⟩
    | true =>
      cases hb : s.div.busy with
      | false => simp
      | true => simp [hload, hb] at hl
  simp [clock, SerialDiv.clock, hbusy.1, hbusy.2]

theorem idle_clocks (h : s.Idle) (inputs : List (DivInput w H)) : (s.clocks inputs).Idle := by
  induction inputs generalizing s with
  | nil => exact h
  | cons i _ ih => exact ih (idle_clock h i)

/-- The instruction `i` was accepted `k + 1` clocks ago. -/
structure Dividing (i : DivInput w H) (k : ℕ) (s : DivPath w H) : Prop where
  loaded : s.loaded = true
  lanes : ∀ l, s.div.lanes l =
    DivLane.round^[k] (.load i.op.isSigned (divOperand i.op (i.rs1 l)) (divOperand i.op (i.rs2 l)))
  busy : s.div.busy = decide (k < w)
  cntr : k < w → s.div.cntr = w - 1 - k
  header : s.header = i.header
  isRem : s.isRem = i.op.isRem
  isW : s.isW = i.op.isW

theorem sub_one_lt_clog (hw : 0 < w) : w - 1 < 2 ^ clog 2 w := by
  have hle := le_pow_clog (b := 2) (by norm_num) w
  omega

theorem accept (hw : 0 < w) (h : s.Idle) (hready : s.readyIn = true)
    (hvalid : i.valid = true) : Dividing i 0 (s.clock i) := by
  have hl : s.loaded = false := by simpa [readyIn] using hready
  have hb := h hl
  have hfits := sub_one_lt_clog hw
  constructor
  case cntr =>
    intro _
    simp [clock, SerialDiv.clock, hvalid, hready, mod_eq_of_lt hfits]
  all_goals simp [clock, SerialDiv.clock, hvalid, hready, validOut, hl, hb, hw]

theorem Dividing.clock {k : ℕ} (h : Dividing i k s) (hk : k < w)
    (j : DivInput w H) : Dividing i (k + 1) (s.clock j) := by
  have hl := h.loaded
  have hb : s.div.busy = true := by rw [h.busy]; simpa using hk
  have hc := h.cntr hk
  have hready : s.readyIn = false := by simp [readyIn, hl]
  have hvalid : s.validOut = false := by simp [validOut, hb]
  have hfits : w - 1 < 2 ^ clog 2 w := sub_one_lt_clog (by omega)
  constructor
  case lanes =>
    intro l
    rw [iterate_succ_apply', ← h.lanes l]
    simp [DivPath.clock, SerialDiv.clock, hready, hb]
  case busy =>
    by_cases hlast : k + 1 < w
    · have hne : s.div.cntr ≠ 0 := by omega
      simp [DivPath.clock, SerialDiv.clock, hready, hb, hne, hlast]
    · have hzero : s.div.cntr = 0 := by omega
      simp [DivPath.clock, SerialDiv.clock, hb, hzero, hlast]
  case cntr =>
    intro hlast
    have hdec : (s.div.cntr + 2 ^ clog 2 w - 1) % 2 ^ clog 2 w = s.div.cntr - 1 := by
      rw [show s.div.cntr + 2 ^ clog 2 w - 1 = s.div.cntr - 1 + 2 ^ clog 2 w by omega,
        add_mod_right]
      exact mod_eq_of_lt (by omega)
    simp only [DivPath.clock, SerialDiv.clock, hready, Bool.and_false, false_eq_true,
      ite_false, hdec]
    omega
  all_goals simp [DivPath.clock, hready, hvalid, hl, h.header, h.isRem, h.isW]

theorem Dividing.clocks {k : ℕ} (h : Dividing i k s)
    (inputs : List (DivInput w H)) (hk : k + inputs.length ≤ w) :
    Dividing i (k + inputs.length) (s.clocks inputs) := by
  induction inputs generalizing s k with
  | nil => exact h
  | cons j inputs ih =>
    rw [List.length_cons] at hk ⊢
    rw [show k + (inputs.length + 1) = k + 1 + inputs.length by omega]
    exact ih (h.clock (by omega) j) (by omega)

/-- After any inputs `before` from reset, an accepted divide instruction has its results at the
output `w` clocks later, whatever the input port shows `during` them: under its own header, and
each lane equal to the result of the M extension exactly when bit 31 tells what it needs of the
signs. -/
theorem divide_results {s : DivPath w H} (hw : 32 ≤ w)
    (hreset : s.loaded = false ∧ s.div.busy = false)
    (before during : List (DivInput w H)) (i : DivInput w H)
    (hready : (s.clocks before).readyIn = true)
    (hvalid : i.valid = true) (hlen : during.length = w) :
    let t := (s.clocks (before ++ i :: during))
    t.validOut = true ∧ t.header = i.header ∧
      ∀ lane, t.resultOut lane = riscvDivide i.op (i.rs1 lane) (i.rs2 lane) ↔
        SignBits i.op (i.rs1 lane) (i.rs2 lane) := by
  have hidle : (s.clocks before).Idle := idle_clocks (fun _ => hreset.2) before
  have hdone := (accept (by omega) hidle hready hvalid).clocks during (by omega)
  have hrun : s.clocks (before ++ i :: during) = ((s.clocks before).clock i).clocks during := by
    simp [DivPath.clocks]
  rw [hlen, zero_add] at hdone
  rw [hrun]
  refine ⟨?_, hdone.header, fun lane => ?_⟩
  · simp [validOut, hdone.loaded, hdone.busy]
  · rw [resultOut, hdone.lanes, hdone.isRem, hdone.isW]
    exact lane_result_iff hw i.op _ _

end DivPath

def resetPath (w : ℕ) : DivPath w ℕ :=
  ⟨false, ⟨fun _ => ⟨0, 0, false, false⟩, 0, false⟩, 0, false, false⟩

def oneDivide {w : ℕ} (op : DivOp) (x y : BitVec w) : DivInput w ℕ :=
  ⟨true, op, 7, fun _ => x, fun _ => y, true⟩

/-- `-7 / 2` and the overflow `intMin / -1` at 64 bits. -/
theorem divide_results_signed :
    let op : DivOp := ⟨true, false, false⟩
    let during := List.replicate 64 (oneDivide op (0 : BitVec 64) 0)
    let t := (resetPath 64).clocks (oneDivide op (-7) 2 :: during)
    let u := (resetPath 64).clocks (oneDivide op (intMin 64) (-1) :: during)
    t.validOut = true ∧ t.header = 7 ∧ t.resultOut 0 = -3 ∧ u.resultOut 0 = intMin 64 := by
  intro op during t u
  have hdivide := fun x y =>
    DivPath.divide_results (s := resetPath 64) (by decide) ⟨rfl, rfl⟩ [] during
      (oneDivide op x y) rfl rfl (by simp [during])
  have ht := hdivide (-7) 2
  have hu := hdivide (intMin 64) (-1)
  refine ⟨ht.1, ht.2.1, ?_, ?_⟩
  · rw [show t.resultOut 0 = _ from (ht.2.2 0).mpr (by decide)]
    decide
  · rw [show u.resultOut 0 = _ from (hu.2.2 0).mpr (by decide)]
    decide

/-- The 64-bit quotient `-2 ^ 32 / 1` comes out positive: bit 31 of the dividend is clear. -/
theorem divide_loses_sign :
    let op : DivOp := ⟨true, false, false⟩
    let during := List.replicate 64 (oneDivide op (0 : BitVec 64) 0)
    let t := (resetPath 64).clocks (oneDivide op (-0x100000000) 1 :: during)
    t.validOut = true ∧ t.resultOut 0 = 0x100000000 ∧
      riscvDivide op (-0x100000000 : BitVec 64) 1 = -0x100000000 := by
  decide +kernel

end VortexGpu.Rtl

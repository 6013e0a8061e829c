import VortexGpu.ShiftAdd
import Mathlib.Data.Nat.Log
import Mathlib.Tactic.Linarith

/-!
# The integer multiplier of the core

`VX_serial_mul` adds one row in each clock. A signed product is formed from rows with inverted sign
columns, and the result adds a constant that cancels what they contribute. The number of rounds is
the width of the first operand, which is right when the second has the same width; and a strobe in
the last clock of a product loads its operands but leaves `busy` low.
-/

namespace VortexGpu.Rtl
open BitVec ShiftAdd Nat

structure MulConfig where
  aWidth : ℕ
  bWidth : ℕ
  rWidth : ℕ
  signed : Bool
  two_le_aWidth : 2 ≤ aWidth
  two_le_bWidth : 2 ≤ bWidth
  rWidth_pos : 0 < rWidth

namespace MulConfig

variable (c : MulConfig)

def xWidth : ℕ := if c.signed then max c.aWidth c.bWidth else c.aWidth
def yWidth : ℕ := if c.signed then max c.aWidth c.bWidth else c.bWidth
def pWidth : ℕ := c.xWidth + c.yWidth

/-- The row for `axb`: a signed row has its sign bit inverted, the last one its other bits. -/
def row (last : Bool) (axb : BitVec c.xWidth) : ℕ :=
  let top := c.xWidth - 1
  if c.signed then
    if last then (axb.getLsbD top).toNat * 2 ^ top + (2 ^ top - 1 - axb.toNat % 2 ^ top)
    else (!axb.getLsbD top).toNat * 2 ^ top + axb.toNat % 2 ^ top
  else axb.toNat

end MulConfig

structure MulLane (c : MulConfig) where
  a : BitVec c.xWidth
  b : BitVec c.yWidth
  p : ℕ

structure MulInput (c : MulConfig) where
  strobe : Bool
  dataa : ℕ → BitVec c.aWidth
  datab : ℕ → BitVec c.bWidth

structure SerialMul (c : MulConfig) where
  lanes : ℕ → MulLane c
  cntr : ℕ
  busy : Bool

variable {c : MulConfig}

namespace MulLane

def load (x : BitVec c.aWidth) (y : BitVec c.bWidth) : MulLane c where
  a := if c.signed then x.signExtend c.xWidth else x.setWidth c.xWidth
  b := if c.signed then y.signExtend c.yWidth else y.setWidth c.yWidth
  p := 0

def round (l : MulLane c) (last : Bool) : MulLane c where
  a := l.a
  b := l.b >>> 1
  p := shiftAdd c.xWidth c.yWidth (c.row last (if l.b.getLsbD 0 then l.a else 0)) l.p

def result (l : MulLane c) : BitVec c.rWidth :=
  if c.signed then .ofNat c.rWidth ((l.p + (2 ^ (c.pWidth - 1) + 2 ^ c.yWidth)) % 2 ^ c.pWidth)
  else .ofNat c.rWidth l.p

/-- The lane after `k` rounds of one product. -/
def rounds (l : MulLane c) : ℕ → MulLane c
  | 0 => l
  | k + 1 => (l.rounds k).round (decide (k + 1 = c.xWidth))

end MulLane

namespace SerialMul

def clock (s : SerialMul c) (i : MulInput c) : SerialMul c where
  lanes l :=
    if i.strobe then .load (i.dataa l) (i.datab l)
    else if s.busy then (s.lanes l).round (decide (s.cntr = 0)) else s.lanes l
  cntr := if i.strobe then (c.xWidth - 1) % 2 ^ clog 2 c.xWidth
    else (s.cntr + 2 ^ clog 2 c.xWidth - 1) % 2 ^ clog 2 c.xWidth
  busy := if s.busy && decide (s.cntr = 0) then false else i.strobe || s.busy

def run (s : SerialMul c) (inputs : List (MulInput c)) : SerialMul c := inputs.foldl clock s

end SerialMul

/-- The product of the operands, in two's complement if the multiplier is signed. -/
def product (x : BitVec c.aWidth) (y : BitVec c.bWidth) : BitVec c.rWidth :=
  if c.signed then .ofInt c.rWidth (x.toInt * y.toInt) else .ofNat c.rWidth (x.toNat * y.toNat)

namespace MulConfig

theorem two_le_xWidth (c : MulConfig) : 2 ≤ c.xWidth := by
  have := c.two_le_aWidth
  unfold xWidth
  split_ifs <;> omega

theorem yWidth_pos (c : MulConfig) : 0 < c.yWidth := by
  have := c.two_le_bWidth
  unfold yWidth
  split_ifs <;> omega

theorem yWidth_of_signed (hs : c.signed = true) :
    c.yWidth = c.xWidth := by rw [yWidth, xWidth, if_pos hs, if_pos hs]

theorem mod_succ_cases {w : ℕ} (b : BitVec w) (k : ℕ) :
    b.getLsbD k = false ∧ b.toNat % 2 ^ (k + 1) = b.toNat % 2 ^ k ∨
      b.getLsbD k = true ∧ b.toNat % 2 ^ (k + 1) = b.toNat % 2 ^ k + 2 ^ k := by
  rw [mod_pow_succ, ← testBit_toNat, testBit_eq_decide_div_mod_eq]
  obtain h | h := mod_two_eq_zero_or_one (b.toNat / 2 ^ k) <;> simp [h]

theorem toInt_cases {w k : ℕ} (hw : w = k + 1) (v : BitVec w) :
    v.getLsbD k = false ∧ v.toInt = (v.toNat % 2 ^ k : ℕ) ∨
      v.getLsbD k = true ∧ v.toInt = (v.toNat % 2 ^ k : ℕ) - (2 ^ k : ℕ) := by
  subst hw
  have hint := v.toInt_eq_msb_cond
  rw [msb_eq_getLsbD_last, Nat.add_sub_cancel] at hint
  have hmod := mod_eq_of_lt v.isLt
  obtain ⟨hbit, hsucc⟩ | ⟨hbit, hsucc⟩ := mod_succ_cases v k
  · rw [hbit, if_neg Bool.false_ne_true] at hint
    exact .inl ⟨hbit, by rw [hint, ← hsucc, hmod]⟩
  · rw [hbit, if_pos rfl, pow_succ] at hint
    exact .inr ⟨hbit, by omega⟩

theorem xWidth_eq (c : MulConfig) : c.xWidth = c.xWidth - 1 + 1 := by
  have := c.two_le_xWidth
  omega

theorem row_unsigned (hs : c.signed = false) (last : Bool) (v : BitVec c.xWidth) :
    c.row last v = v.toNat := by
  rw [row, if_neg (by simp [hs])]

/-- A row that is not the last is the signed number, moved up by half the range. -/
theorem row_inner (hs : c.signed = true) (v : BitVec c.xWidth) :
    (c.row false v : ℤ) = v.toInt + (2 ^ (c.xWidth - 1) : ℕ) := by
  rw [row, if_pos hs, if_neg Bool.false_ne_true]
  obtain ⟨hbit, hint⟩ | ⟨hbit, hint⟩ := toInt_cases c.xWidth_eq v <;> rw [hbit, hint] <;>
    simp [add_comm]

theorem row_last (hs : c.signed = true) (v : BitVec c.xWidth) :
    (c.row true v : ℤ) = (2 ^ (c.xWidth - 1) : ℕ) - 1 - v.toInt := by
  have hlt := mod_lt v.toNat (Nat.two_pow_pos (c.xWidth - 1))
  rw [row, if_pos hs, if_pos rfl]
  obtain ⟨hbit, hint⟩ | ⟨hbit, hint⟩ :=
    toInt_cases c.xWidth_eq v <;> rw [hbit, hint, Nat.sub_sub] <;>
    push_cast [Bool.toNat_false, Bool.toNat_true,
      show 1 + v.toNat % 2 ^ (c.xWidth - 1) ≤ 2 ^ (c.xWidth - 1) by omega] <;> ring

theorem row_lt (last : Bool) (v : BitVec c.xWidth) : c.row last v < 2 ^ c.xWidth := by
  have hlt := mod_lt v.toNat (Nat.two_pow_pos (c.xWidth - 1))
  have hpow := two_pow_pred_mul_two (zero_lt_two.trans_le c.two_le_xWidth)
  have hbit : ∀ b : Bool, b.toNat * 2 ^ (c.xWidth - 1) ≤ 2 ^ (c.xWidth - 1) := by
    intro b
    cases b <;> simp
  have h := hbit (v.getLsbD (c.xWidth - 1))
  have h' := hbit (!v.getLsbD (c.xWidth - 1))
  simp only [row]
  split_ifs
  · omega
  · omega
  · exact v.isLt

end MulConfig

namespace MulLane

variable (l : MulLane c) {k : ℕ}

/-- What the rows of the first `k` rounds add up to. -/
def rowSum : ℕ → ℕ
  | 0 => 0
  | k + 1 => rowSum k + c.row (decide (k + 1 = c.xWidth)) (if l.b.getLsbD k then l.a else 0) * 2 ^ k

theorem rounds_spec (hp : l.p = 0) (k : ℕ) :
    (l.rounds k).a = l.a ∧ (l.rounds k).b = l.b >>> k ∧
    Rounds c.xWidth c.yWidth k (l.rowSum k) (l.rounds k).p := by
  induction k with
  | zero =>
    refine ⟨rfl, (ushiftRight_zero _).symm, ?_⟩
    rw [rounds, hp]
    exact .start
  | succ k ih =>
    obtain ⟨ha, hb, hr⟩ := ih
    simp only [rounds, round, ha, hb, getLsbD_ushiftRight, Nat.add_zero, BitVec.shiftRight_add,
      true_and]
    exact hr.next c.yWidth_pos (MulConfig.row_lt _ _)

theorem rowSum_unsigned (hs : c.signed = false) (k : ℕ) :
    l.rowSum k = l.a.toNat * (l.b.toNat % 2 ^ k) := by
  induction k with
  | zero => rw [pow_zero, mod_one]; rfl
  | succ k ih =>
    rw [rowSum, ih, MulConfig.row_unsigned hs]
    obtain ⟨hb, hmod⟩ | ⟨hb, hmod⟩ :=
      MulConfig.mod_succ_cases l.b k <;> simp [hb, hmod, Nat.mul_add]

theorem rowSum_inner (hs : c.signed = true) (hk : k < c.xWidth) :
    (l.rowSum k : ℤ) = l.a.toInt * (l.b.toNat % 2 ^ k : ℕ) + (2 ^ (c.xWidth - 1) : ℕ) *
      (2 ^ k - 1) := by
  induction k with
  | zero => rw [pow_zero, mod_one]; simp [rowSum]
  | succ k ih =>
    rw [rowSum, decide_eq_false (by omega), cast_add, cast_mul, ih (by omega),
      MulConfig.row_inner hs]
    obtain ⟨hb, hmod⟩ | ⟨hb, hmod⟩ :=
      MulConfig.mod_succ_cases l.b k <;> simp [hb, hmod] <;> ring

theorem rowSum_signed (hs : c.signed = true) :
    (l.rowSum c.xWidth : ℤ) = l.a.toInt * l.b.toInt + 2 ^ (2 * c.xWidth - 1) - 2 ^ c.xWidth := by
  have hX := c.xWidth_eq
  obtain ⟨x, hx⟩ : ∃ x, c.xWidth = x + 1 := ⟨_, hX⟩
  rw [congrArg l.rowSum hX, rowSum, decide_eq_true hX.symm, cast_add, cast_mul,
    l.rowSum_inner hs (by omega), MulConfig.row_last hs]
  obtain ⟨hbit, hint⟩ | ⟨hbit, hint⟩ :=
    MulConfig.toInt_cases ((MulConfig.yWidth_of_signed hs).trans hX) l.b <;>
    rw [hbit, hint] <;> simp [hx, pow_succ, Nat.mul_add] <;> ring

theorem rounds_p (hw : c.yWidth = c.xWidth) (hp : l.p = 0) :
    (l.rounds c.xWidth).p = l.rowSum c.xWidth := by
  obtain ⟨-, -, hr⟩ := l.rounds_spec hp c.xWidth
  rw [hr.holds, hw, Nat.mul_div_cancel _ (Nat.two_pow_pos _)]

theorem result_unsigned (hs : c.signed = false) (x : BitVec c.aWidth) (y : BitVec c.bWidth) :
    ((load x y).rounds c.xWidth).result =
      .ofNat c.rWidth (x.toNat * (y.toNat % 2 ^ c.aWidth) * 2 ^ c.bWidth / 2 ^ c.aWidth) := by
  have hX : c.xWidth = c.aWidth := if_neg (by simp [hs])
  have hY : c.yWidth = c.bWidth := if_neg (by simp [hs])
  obtain ⟨-, -, hr⟩ := (load x y).rounds_spec rfl c.xWidth
  have ha : (load x y).a.toNat = x.toNat := by simp [load, hs, hX, mod_eq_of_lt x.isLt]
  have hb : (load x y).b.toNat = y.toNat := by simp [load, hs, hY, mod_eq_of_lt y.isLt]
  rw [result, if_neg (by simp [hs]), hr.holds, rowSum_unsigned _ hs, ha, hb, hX, hY]

theorem result_signed (hs : c.signed = true) (hR : c.rWidth ≤ c.pWidth) (x : BitVec c.aWidth)
    (y : BitVec c.bWidth) : ((load x y).rounds c.xWidth).result = product x y := by
  have hY := MulConfig.yWidth_of_signed hs
  have hX : c.xWidth = max c.aWidth c.bWidth := if_pos hs
  have hsum := rowSum_signed (load x y) hs
  have ha : (load x y).a.toInt = x.toInt := by
    simp only [load, hs, if_true]
    exact toInt_signExtend_of_le (by omega)
  have hb : (load x y).b.toInt = y.toInt := by
    simp only [load, hs, if_true]
    exact toInt_signExtend_of_le (by omega)
  have hP : c.pWidth = 2 * c.xWidth := by rw [MulConfig.pWidth, hY, Nat.two_mul]
  obtain ⟨d, hd⟩ := Nat.exists_eq_add_of_le hR
  rw [ha, hb] at hsum
  rw [result, if_pos hs, product, if_pos hs, rounds_p _ hY rfl, ← ofInt_natCast]
  apply eq_of_toNat_eq
  rw [toNat_ofInt, toNat_ofInt]
  congr 1
  push_cast [hsum]
  rw [Int.emod_emod_of_dvd _ (pow_dvd_pow _ hR), hY, ← hP]
  have hpow : (2 : ℤ) ^ (c.pWidth - 1) * 2 = 2 ^ c.rWidth * 2 ^ d := by
    rw [← pow_succ, ← pow_add, ← hd, Nat.sub_add_cancel (by have := c.two_le_xWidth; omega)]
  rw [← Int.add_mul_emod_self_left (x.toInt * y.toInt) (2 ^ c.rWidth) (2 ^ d), ← hpow]
  congr 1
  ring

end MulLane

/-- An unsigned multiplier has operands of one width, a signed one a result no wider than the
product register. -/
def MulConfig.Fits (c : MulConfig) : Prop :=
  (c.signed = false → c.aWidth = c.bWidth) ∧ (c.signed = true → c.rWidth ≤ c.pWidth)

theorem MulConfig.Fits.result_eq (h : c.Fits) (x : BitVec c.aWidth) (y : BitVec c.bWidth) :
    ((MulLane.load x y).rounds c.xWidth).result = product x y := by
  cases hs : c.signed with
  | true => exact MulLane.result_signed hs (h.2 hs) x y
  | false =>
    have hpow : 2 ^ c.aWidth = 2 ^ c.bWidth := by rw [h.1 hs]
    rw [MulLane.result_unsigned hs, product, if_neg (by simp [hs]), hpow,
      Nat.mul_div_cancel _ (Nat.two_pow_pos _), mod_eq_of_lt y.isLt]

theorem product_one : product (c := c) 1#_ 1#_ = 1#_ := by
  have ha := c.two_le_aWidth
  have hb := c.two_le_bWidth
  unfold product
  split_ifs
  · rw [toInt_one (by omega), toInt_one (by omega)]
    rfl
  · rw [toNat_ofNat, toNat_ofNat, one_mod_two_pow (by omega), one_mod_two_pow (by omega)]

/-- An even result is not the product of ones. -/
theorem ofNat_ne_product_one {n : ℕ} (hn : n % 2 = 0) :
    BitVec.ofNat c.rWidth n ≠ product 1#_ 1#_ := by
  intro h
  have hbit := congrArg (·.getLsbD 0) (h.trans product_one)
  have hR := c.rWidth_pos
  simp only [getLsbD_ofNat, hR, testBit_zero, hn] at hbit
  exact absurd hbit (by decide)

/-- What a lane holds when `busy` drops with the strobe. -/
theorem MulLane.result_load_ne : (load (c := c) 1#_ 1#_).result ≠ product 1#_ 1#_ := by
  have hX := c.two_le_xWidth
  have hY := c.yWidth_pos
  unfold result
  split_ifs
  · apply ofNat_ne_product_one
    have hP : c.pWidth = c.xWidth + c.yWidth := rfl
    rw [mod_mod_of_dvd _ (dvd_pow_self 2 (by omega)), show (load 1#_ 1#_).p = 0 from rfl,
      Nat.zero_add, add_mod, two_pow_mod_two_eq_zero.mpr (by omega), two_pow_mod_two_eq_zero.mpr hY]
  · exact ofNat_ne_product_one rfl

theorem MulConfig.Fits.of_result
    (h : ∀ x y, ((MulLane.load (c := c) x y).rounds c.xWidth).result = product x y) :
    c.Fits := by
  have ha := c.two_le_aWidth
  have hb := c.two_le_bWidth
  refine ⟨fun hs => ?_, fun hs => ?_⟩
  · by_contra hne
    refine ofNat_ne_product_one ?_ ((MulLane.result_unsigned hs 1#_ 1#_).symm.trans (h _ _))
    rw [toNat_ofNat, toNat_ofNat, one_mod_two_pow (by omega), one_mod_two_pow (by omega),
      one_mod_two_pow (by omega), Nat.one_mul]
    obtain hlt | hlt := Nat.lt_or_gt_of_ne hne
    · rw [Nat.pow_div hlt.le zero_lt_two]
      exact even_iff.mp (even_pow.mpr ⟨even_two, by omega⟩)
    · rw [div_eq_of_lt (Nat.pow_lt_pow_right one_lt_two hlt)]
  · by_contra hlt
    have hone := h 1#_ (allOnes _)
    have hneg : BitVec.ofInt c.rWidth (1 * -1) = allOnes _ := by
      rw [Int.one_mul, ofInt_neg, ← neg_one_eq_allOnes]; rfl
    rw [MulLane.result, product, if_pos hs, if_pos hs, toInt_one (by omega), toInt_allOnes,
      if_pos (by omega), hneg] at hone
    have hbit := congrArg (·.getLsbD c.pWidth) hone
    simp [getLsbD_ofNat, testBit_mod_two_pow, Nat.lt_of_not_le hlt, -getLsbD_eq_getElem] at hbit

namespace SerialMul

variable {s : SerialMul c} {i : MulInput c} {inputs : List (MulInput c)}

/-- `k` clocks after a strobe. -/
structure Working (i : MulInput c) (k : ℕ) (s : SerialMul c) : Prop where
  busy : s.busy = decide (k < c.xWidth)
  cntr : k < c.xWidth → s.cntr = c.xWidth - 1 - k
  lanes (l : ℕ) : s.lanes l = (MulLane.load (i.dataa l) (i.datab l)).rounds (min k c.xWidth)

theorem Working.start (hi : i.strobe = true) (hs : ¬ (s.busy = true ∧ s.cntr = 0)) :
    Working i 0 (s.clock i) := by
  have hX := c.two_le_xWidth
  refine ⟨?_, fun _ => ?_, fun l => ?_⟩
  · simp only [SerialMul.clock, hi]
    rw [if_neg (by simpa using hs), decide_eq_true (by omega)]
    rfl
  · simp only [SerialMul.clock, hi, if_true]
    have := le_pow_clog one_lt_two c.xWidth
    rw [Nat.sub_zero, mod_eq_of_lt (by omega)]
  · simp only [SerialMul.clock, hi, if_true]
    rw [Nat.zero_min, MulLane.rounds]

theorem Working.clock {k : ℕ} {j : MulInput c} (h : Working i k s) (hj : j.strobe = false) :
    Working i (k + 1) (s.clock j) := by
  have hX := c.two_le_xWidth
  have hbusy := h.busy
  by_cases hk : k < c.xWidth
  · have hcntr := h.cntr hk
    have hpow := le_pow_clog one_lt_two c.xWidth
    have hlast : s.cntr = 0 ↔ k + 1 = c.xWidth := by omega
    rw [decide_eq_true hk] at hbusy
    refine ⟨?_, fun hk' => ?_, fun l => ?_⟩
    · simp only [SerialMul.clock, hj, hbusy, hlast, Bool.true_and, decide_eq_true_eq]
      split_ifs with hend
      · rw [decide_eq_false (by omega)]
      · rw [decide_eq_true (by omega)]
        rfl
    · simp only [SerialMul.clock, hj, hcntr]
      rw [if_neg Bool.false_ne_true, show c.xWidth - 1 - k + 2 ^ clog 2 c.xWidth - 1 =
        c.xWidth - 1 - (k + 1) + 2 ^ clog 2 c.xWidth by omega, add_mod_right,
        mod_eq_of_lt (by omega)]
    · simp only [SerialMul.clock, hj, hbusy, hlast, h.lanes, Bool.false_eq_true, if_false, if_true]
      rw [Nat.min_eq_left hk.le, Nat.min_eq_left hk, MulLane.rounds]
  · rw [decide_eq_false hk] at hbusy
    refine ⟨?_, fun hk' => absurd hk' (by omega), fun l => ?_⟩
    · rw [decide_eq_false fun hk' => hk (lt_of_succ_lt hk')]
      simp [SerialMul.clock, hj, hbusy]
    · simp only [SerialMul.clock, hj, hbusy, h.lanes, Bool.false_eq_true, if_false]
      rw [Nat.min_eq_right (by omega), Nat.min_eq_right (by omega)]

theorem Working.run {k : ℕ} (h : Working i k s) (hidle : ∀ j ∈ inputs, j.strobe = false) :
    Working i (k + inputs.length) (s.run inputs) := by
  induction inputs generalizing s k with
  | nil => exact h
  | cons j js ih =>
    rw [List.forall_mem_cons] at hidle
    rw [List.length_cons, Nat.add_comm js.length, ← Nat.add_assoc]
    exact ih (h.clock hidle.1) hidle.2

theorem run_idle (hs : s.busy = false) (hidle : ∀ j ∈ inputs, j.strobe = false) :
    (s.run inputs).busy = false := by
  induction inputs generalizing s with
  | nil => exact hs
  | cons j js ih =>
    rw [List.forall_mem_cons] at hidle
    exact ih (by simp [clock, hs, hidle.1]) hidle.2

end SerialMul

/-- Once `busy` is low again after a strobe, which happens after at most `X_WIDTH` clocks, every
lane holds its product, if and only if the widths fit and the strobe does not come in the last clock
of another product. -/
theorem serial_mul_correct_iff (c : MulConfig) (s : SerialMul c) :
    (∀ i inputs, i.strobe = true → (∀ j ∈ inputs, j.strobe = false) →
      c.xWidth ≤ inputs.length → ((s.clock i).run inputs).busy = false) ∧
    ((∀ i inputs, i.strobe = true → (∀ j ∈ inputs, j.strobe = false) →
      ((s.clock i).run inputs).busy = false →
      ∀ l, (((s.clock i).run inputs).lanes l).result = product (i.dataa l) (i.datab l)) ↔
    c.Fits ∧ ¬ (s.busy = true ∧ s.cntr = 0)) := by
  refine ⟨fun i inputs hi hidle hlen => ?_, fun h => ?_,
    fun ⟨hfits, hs⟩ i inputs hi hidle hbusy l => ?_⟩
  · by_cases hs : s.busy = true ∧ s.cntr = 0
    · exact SerialMul.run_idle (by simp [SerialMul.clock, hs]) hidle
    · rw [((SerialMul.Working.start hi hs).run hidle).busy, decide_eq_false (by omega)]
  · have hs : ¬ (s.busy = true ∧ s.cntr = 0) := by
      intro hs
      have hlost := h ⟨true, fun _ => 1#_, fun _ => 1#_⟩ [] rfl (List.forall_mem_nil _)
        (by simp [SerialMul.run, SerialMul.clock, hs]) 0
      exact MulLane.result_load_ne hlost
    refine ⟨.of_result fun x y => ?_, hs⟩
    have hidle :
        ∀ j ∈ List.replicate c.xWidth (⟨false, fun _ => x, fun _ => y⟩ : MulInput c),
        j.strobe = false := by
      intro j hj
      rw [List.eq_of_mem_replicate hj]
    have hw := (SerialMul.Working.start (i := ⟨true, fun _ => x, fun _ => y⟩) rfl hs).run hidle
    rw [Nat.zero_add, List.length_replicate] at hw
    have hres := h ⟨true, fun _ => x, fun _ => y⟩ _ rfl hidle (by simp [hw.busy]) 0
    rwa [hw.lanes, Nat.min_self] at hres
  · have hw := (SerialMul.Working.start hi hs).run hidle
    have hlen : c.xWidth ≤ 0 + inputs.length := by simpa [hw.busy] using hbusy
    rw [hw.lanes, Nat.min_eq_right hlen, hfits.result_eq]

/-- One times one with operands of three and two bits: the last round moves the product out. -/
theorem serial_mul_unequal_widths :
    let c : MulConfig := ⟨3, 2, 5, false, by decide, by decide, by decide⟩
    let input (strobe : Bool) : MulInput c := ⟨strobe, fun _ => 1#3, fun _ => 1#2⟩
    let s := ((⟨fun _ => ⟨0, 0, 0⟩, 0, false⟩ : SerialMul c).clock (input true)).run
      (List.replicate 3 (input false))
    s.busy = false ∧ (s.lanes 0).result = 0#5 ∧ product (c := c) 1#3 1#2 = 1#5 := by
  decide

end VortexGpu.Rtl

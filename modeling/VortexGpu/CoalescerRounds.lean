import VortexGpu.MaskedWrites
import VortexGpu.MemCoalescer

/-!
# The rounds of the coalescer

Which lanes a round covers: of each group the first lane that is left, and without atomics all
others that are left on its line. The data of a round's store is that of its lanes, one after the
other.
-/

namespace VortexGpu.Coalescer
open Nat List Config

open ByteMem (Mem maskedWrite)
open Cache (MemBlock zeroBlock mergeBlock)

variable [Config]

section Rounds

variable {req : LsuReq} {sent : ℕ → Bool} {i j o r : ℕ}

theorem lane_div (hr : r < outputRatio) : (o * outputRatio + r) / outputRatio = o := by
  rw [mul_comm, mul_add_div ratio_pos, div_eq_of_lt hr, add_zero]

theorem lane_mod (hr : r < outputRatio) : (o * outputRatio + r) % outputRatio = r := by
  rw [mul_comm, mul_add_mod, mod_eq_of_lt hr]

theorem lane_eq (i : ℕ) : i / outputRatio * outputRatio + i % outputRatio = i := by
  rw [mul_comm]
  exact div_add_mod i outputRatio

theorem lane_lt (ho : o < outputSize) (hr : r < outputRatio) : o * outputRatio + r < inputSize := by
  calc o * outputRatio + r < (o + 1) * outputRatio := by rw [Nat.add_one_mul]; omega
    _ ≤ outputSize * outputRatio := Nat.mul_le_mul_right _ ho

theorem group_lt (hi : i < inputSize) : i / outputRatio < outputSize :=
  Nat.div_lt_of_lt_mul (by rw [mul_comm]; exact hi)

theorem mod_lt (i : ℕ) : i % outputRatio < outputRatio := Nat.mod_lt i ratio_pos

theorem seed_spec (h : seed req sent o = some r) :
    r < outputRatio ∧ unsent req sent (o * outputRatio + r) = true ∧
    ∀ r' < r, unsent req sent (o * outputRatio + r') = false := by
  have hmem := mem_range.mp (mem_of_find?_eq_some h)
  refine ⟨hmem, by simpa using find?_some h, fun r' hr' => ?_⟩
  obtain ⟨-, k, hk, hget, hbefore⟩ := find?_eq_some_iff_getElem.mp h
  rw [getElem_range] at hget
  have := hbefore r' (by omega)
  simpa using this

theorem seed_of_unsent (hu : unsent req sent i = true) :
    ∃ r, seed req sent (i / outputRatio) = some r := by
  refine Option.isSome_iff_exists.mp (find?_isSome.mpr ⟨i % outputRatio,
    mem_range.mpr (mod_lt i), ?_⟩)
  rwa [lane_eq]

theorem roundMask_iff : roundMask req sent i = true ↔ i < inputSize ∧
    ∃ r, seed req sent (i / outputRatio) = some r ∧
    (i % outputRatio = r ∨ req.op.isAtomic = false ∧
      r < i % outputRatio ∧ unsent req sent i = true ∧
      lineAddr (req.addrs i) = lineAddr (req.addrs (i / outputRatio * outputRatio + r))) := by
  cases h : seed req sent (i / outputRatio) with
  | none => simp [roundMask, h]
  | some r => simp [roundMask, h, and_assoc]

omit [Config] in
theorem unsent_iff : unsent req sent i = true ↔ sent i = false ∧ req.mask i = true := by
  simp [unsent]

theorem roundMask_unsent (h : roundMask req sent i = true) :
    i < inputSize ∧ unsent req sent i = true := by
  obtain ⟨hi, r, hr, hseed | ⟨-, -, hu, -⟩⟩ := roundMask_iff.mp h
  · have := (seed_spec hr).2.1
    rw [← hseed, lane_eq] at this
    exact ⟨hi, this⟩
  · exact ⟨hi, hu⟩

theorem roundMask_seed (ho : o < outputSize) (h : seed req sent o = some r) :
    roundMask req sent (o * outputRatio + r) = true := by
  have hr := (seed_spec h).1
  refine roundMask_iff.mpr ⟨lane_lt ho hr, r, ?_, .inl (lane_mod hr)⟩
  rwa [lane_div hr]

theorem roundMask_line (h : roundMask req sent i = true)
    (hr : seed req sent (i / outputRatio) = some r) :
    lineAddr (req.addrs i) = lineAddr (req.addrs (i / outputRatio * outputRatio + r)) := by
  obtain ⟨-, r', hr', hseed | ⟨-, -, -, hline⟩⟩ := roundMask_iff.mp h
  · cases hr'.symm.trans hr
    rw [← hseed, lane_eq]
  · cases hr'.symm.trans hr
    exact hline

theorem roundMask_atomic (hop : req.op.isAtomic = true) (h : roundMask req sent i = true) :
    seed req sent (i / outputRatio) = some (i % outputRatio) := by
  obtain ⟨-, r, hr, hseed | ⟨hno, -⟩⟩ := roundMask_iff.mp h
  · rw [hr, hseed]
  · rw [hop] at hno
    cases hno

theorem roundMask_class (hop : req.op.isAtomic = false) (h : roundMask req sent i = true)
    (hj : j < inputSize)
    (hu : unsent req sent j = true) (hgroup : i / outputRatio = j / outputRatio)
    (hline : lineAddr (req.addrs i) = lineAddr (req.addrs j)) : roundMask req sent j = true := by
  obtain ⟨-, r, hr, -⟩ := roundMask_iff.mp h
  have hseed := roundMask_line h hr
  rw [hgroup] at hr hseed
  refine roundMask_iff.mpr ⟨hj, r, hr, ?_⟩
  rcases lt_trichotomy (j % outputRatio) r with hlt | heq | hgt
  · have := (seed_spec hr).2.2 _ hlt
    rw [lane_eq, hu] at this
    cases this
  · exact .inl heq
  · exact .inr ⟨hop, hgt, hu, hline.symm.trans hseed⟩

end Rounds

def storeBlock (m : Mem) (addr byteen : ℕ) : Option MemBlock → Mem
  | some d => maskedWrite 64 m addr byteen d
  | none => m

def storeLane (req : LsuReq) (m : Mem) (i : ℕ) : Mem :=
  storeBlock m (req.addrs i) (req.byteen i) (req.data i)

def Emission.store (m : Mem) (e : Emission) : Mem := storeBlock m e.req.addr e.req.byteen e.req.data

def Overlap (req : LsuReq) (i j : ℕ) : Prop :=
  i / outputRatio = j / outputRatio ∧ req.mask i = true ∧ req.mask j = true ∧
    lineAddr (req.addrs i) ≠ lineAddr (req.addrs j) ∧ req.addrs i / 64 = req.addrs j / 64 ∧
    req.byteen i &&& req.byteen j ≠ 0

instance (req : LsuReq) (i j : ℕ) : Decidable (Overlap req i j) :=
  inferInstanceAs (Decidable (_ ∧ _))

def Separate (req : LsuReq) : Prop := ∀ i < inputSize, ∀ j < inputSize, ¬ Overlap req i j

instance (req : LsuReq) : Decidable (Separate req) :=
  inferInstanceAs (Decidable (∀ i < inputSize, ∀ j < inputSize, ¬ Overlap req i j))

section Stores

variable {req : LsuReq} {i j : ℕ}

theorem lineAddr_block (addr : ℕ) : lineAddr addr / 64 = addr / 64 := by
  have hsplit : 64 = 2 ^ lineBits * 2 ^ (6 - lineBits) := by
    rw [← Nat.pow_add, Nat.add_sub_cancel' line_le]
  rw [lineAddr, hsplit, ← Nat.div_div_eq_div_mul, Nat.mul_div_cancel _ (Nat.two_pow_pos _),
    Nat.div_div_eq_div_mul]

theorem storeLane_comm (h : Separate req) (hi : i < inputSize) (hj : j < inputSize)
    (hgroup : i / outputRatio = j / outputRatio) (hmi : req.mask i = true) (hmj : req.mask j = true)
    (hline : lineAddr (req.addrs i) ≠ lineAddr (req.addrs j)) (m : Mem) :
    storeLane req (storeLane req m j) i = storeLane req (storeLane req m i) j := by
  unfold storeLane
  cases req.data i with
  | none => rfl
  | some d =>
    cases req.data j with
    | none => rfl
    | some d' =>
      refine ByteMem.maskedWrite_comm ?_
      by_cases hblock : req.addrs j / 64 = req.addrs i / 64
      · have hzero : req.byteen i &&& req.byteen j = 0 := by
          by_contra hne
          exact h i hi j hj ⟨hgroup, hmi, hmj, hline, hblock.symm, hne⟩
        refine .inr fun b hb => ?_
        have := congrArg (testBit · b) hzero
        simp only [testBit_and, hb.1, hb.2, Bool.and_self, zero_testBit, reduceCtorEq] at this
      · exact .inl hblock

omit [Config] in
theorem mergeLane_store {addr : ℕ} (haddr : req.addrs j / 64 = addr / 64)
    {acc : Option MemBlock × ℕ} (hacc : acc.1 = none → acc.2 = 0) (m : Mem) :
    storeBlock m addr (mergeLane req acc j).2 (mergeLane req acc j).1 =
      storeLane req (storeBlock m addr acc.2 acc.1) j := by
  unfold storeLane mergeLane
  cases hd : req.data j with
  | none => rfl
  | some d =>
    obtain ⟨old, be⟩ := acc
    cases old with
    | some old => exact (ByteMem.maskedWrite_merge haddr.symm).symm
    | none =>
      obtain rfl : be = 0 := hacc rfl
      simp only [storeBlock, zero_or]
      funext x
      simp only [maskedWrite, haddr, mergeBlock]
      split
      · rename_i hx
        rw [if_pos hx.2]
      · rfl

omit [Config] in
theorem mergeLanes_store {addr : ℕ} {l : List ℕ} (h : ∀ j ∈ l, req.addrs j / 64 = addr / 64)
    (acc : Option MemBlock × ℕ) (hacc : acc.1 = none → acc.2 = 0) (m : Mem) :
    storeBlock m addr (l.foldl (mergeLane req) acc).2 (l.foldl (mergeLane req) acc).1 =
      l.foldl (storeLane req) (storeBlock m addr acc.2 acc.1) := by
  induction l generalizing acc with
  | nil => rfl
  | cons j l ih =>
    rw [foldl_cons, foldl_cons, ih (fun k hk => h k (mem_cons_of_mem _ hk)),
      mergeLane_store (h j (mem_cons_self ..)) hacc]
    intro hnone
    unfold mergeLane at hnone ⊢
    cases hd : req.data j with
    | none =>
      rw [hd] at hnone
      exact hacc hnone
    | some d =>
      rw [hd] at hnone
      cases hnone

end Stores

end VortexGpu.Coalescer

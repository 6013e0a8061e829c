import VortexGpu.SparseGroups

/-!
# The sparse round trip

Pruning, compression and the gather over whole matrices. The groups of a matrix follow each other
in the order of their offsets, so each pass is one loop over blocks that touch nothing of each
other, and a row's dot product is taken block by block.
-/

namespace VortexGpu.Tensor
open List (countP_append countP_nil foldl foldl_append foldl_cons foldl_nil range_succ)
open Function (comp_apply update update_of_ne update_self)
open Nat Finset Option

def Fits (T : ElemType) (d : Cells) : Prop := ∀ i, d i < 2 ^ if T.bits < 8 then 8 else T.codeBits

section Cells

variable {T : ElemType} {d : Cells}

theorem codeBits_packed (hT : T.bits < 8) : T.codeBits = 4 := by
  cases T <;> first | rfl | exact absurd hT (by decide)

theorem nibble_low (x : ℕ) : x &&& 0x0f = x % 16 := and_two_pow_sub_one_eq_mod x 4

theorem nibble_high (x : ℕ) : x >>> 4 = x / 16 := shiftRight_eq_div_pow x 4

theorem and_high {old : ℕ} (h : old < 256) : old &&& 0xf0 = old >>> 4 <<< 4 := by
  refine eq_of_testBit_eq fun i => ?_
  rw [testBit_and, show 0xf0 = (2 ^ 4 - 1) <<< 4 from rfl, testBit_shiftLeft, testBit_shiftLeft,
    testBit_two_pow_sub_one, testBit_shiftRight]
  by_cases hi : 4 ≤ i
  · rw [show 4 + (i - 4) = i by omega]
    by_cases hi' : i - 4 < 4
    · simp [hi, hi']
    · have hbig : 2 ^ 8 ≤ 2 ^ i := pow_le_pow_right₀ one_le_two (by omega)
      simp [testBit_lt_two_pow (h.trans_le hbig)]
  · simp [hi]

theorem or_shift_four {x : ℕ} (v : ℕ) (hx : x < 16) : v <<< 4 ||| x = 16 * v + x := by
  rw [← shiftLeft_add_eq_or_of_lt hx, shiftLeft_eq, mul_comm]

theorem write_high (old : ℕ) {v : ℕ} (hv : v < 16) :
    ((old &&& 0x0f) ||| (v <<< 4)) % 256 = 16 * v + old % 16 := by
  rw [nibble_low, Nat.lor_comm, or_shift_four v (mod_lt _ (by omega)), mod_eq_of_lt (by omega)]

theorem write_low {old v : ℕ} (hold : old < 256) (hv : v < 16) :
    (old &&& 0xf0) ||| (v &&& 0x0f) = 16 * (old / 16) + v := by
  rw [and_high hold, nibble_high, nibble_low, mod_eq_of_lt hv, or_shift_four _ hv]

theorem read_lt (hd : Fits T d) (k : ℕ) : read T d k < 2 ^ T.codeBits := by
  by_cases hT : T.bits < 8
  · have hcell := hd (k / 2)
    simp only [hT, if_true] at hcell
    simp only [read, if_pos hT, codeBits_packed hT, nibble_low, nibble_high]
    split <;> omega
  · have hcell := hd k
    simp only [hT, if_false] at hcell
    simp only [read, if_neg hT]
    exact hcell

theorem fits_write (hd : Fits T d) {v : ℕ} (hv : v < 2 ^ T.codeBits) (offset : ℕ) :
    Fits T (write T d offset v) := by
  intro i
  by_cases hT : T.bits < 8
  · simp only [write, if_pos hT]
    by_cases hi : i = offset / 2
    · have hcell := hd (offset / 2)
      simp only [hT, if_true] at hcell
      rw [codeBits_packed hT] at hv
      rw [hi, update_self, write_high _ hv, write_low hcell hv]
      split <;> omega
    · rw [update_of_ne hi]
      simpa [hT] using hd i
  · simp only [write, if_neg hT]
    by_cases hi : i = offset
    · rw [hi, update_self]
      exact hv
    · rw [update_of_ne hi]
      simpa [hT] using hd i

theorem read_write (hd : Fits T d) {v : ℕ} (hv : v < 2 ^ T.codeBits) (offset k : ℕ) :
    read T (write T d offset v) k = if k = offset then v else read T d k := by
  by_cases hT : T.bits < 8
  · have hcell := hd (offset / 2)
    simp only [hT, if_true] at hcell
    rw [codeBits_packed hT] at hv
    simp only [read, write, if_pos hT, write_high _ hv, write_low hcell hv]
    simp only [nibble_low, nibble_high]
    by_cases hk : k / 2 = offset / 2
    · rw [hk, update_self]
      have hcases : k = offset ↔ k % 2 = offset % 2 := by omega
      simp only [hcases]
      rcases mod_two_eq_zero_or_one k with h | h <;>
        rcases mod_two_eq_zero_or_one offset with h' | h' <;>
        simp [h, h'] <;> omega
    · rw [update_of_ne hk, if_neg (show ¬ k = offset from fun h => hk (by rw [h]))]
  · simp only [read, write, if_neg hT]
    by_cases hk : k = offset
    · rw [hk, update_self, if_pos rfl]
    · rw [update_of_ne hk, if_neg hk]

end Cells

theorem overGroups_eq {σ : Type} (rows groups : ℕ) (body : ℕ → ℕ → σ → σ) (s : σ) :
    overGroups rows groups body s =
    (List.range (rows * groups)).foldl (fun s b => body (b / groups) (b % groups) s) s := by
  unfold overGroups
  induction rows with
  | zero => simp
  | succ rows ih =>
    rw [range_succ, foldl_append, foldl_cons, foldl_nil, ih, succ_mul, List.range_add,
      foldl_append, List.foldl_map]
    refine List.foldl_ext _ _ _ fun s g hg => ?_
    have hg' := List.mem_range.mp hg
    rw [mul_comm rows, mul_add_div (by omega), mul_add_mod, Nat.div_eq_of_lt hg', mod_eq_of_lt hg',
      add_zero]

theorem u32_eq {x : ℕ} (h : x < 2 ^ 32) : u32 x = x := mod_eq_of_lt h

def groupOf (T : ElemType) (d : Cells) (base i : ℕ) : ℕ := read T d (base + i)

section Prune

variable {T : ElemType} {d : Cells}

theorem zero_lt_codes : 0 < 2 ^ T.codeBits := Nat.two_pow_pos _

theorem read_zeros (drop : ℕ → Prop) [DecidablePred drop] {base : ℕ}
    (hbase : base + 4 ≤ 2 ^ 32)
    (l : List ℕ) (hl : ∀ i ∈ l, i < 4) (hd : Fits T d) {d' : Cells}
    (hd' : l.foldl (fun d i => if drop i then write T d (u32 (base + i)) 0 else d) d = d') :
    Fits T d' ∧ ∀ k, read T d' k = if ∃ i ∈ l, drop i ∧ k = base + i then 0
      else read T d k := by
  induction l generalizing d with
  | nil =>
    subst hd'
    exact ⟨hd, fun k => by simp⟩
  | cons i l ih =>
    have hi := hl i (List.mem_cons_self ..)
    have hl' : ∀ j ∈ l, j < 4 := fun j hj => hl j (List.mem_cons_of_mem _ hj)
    rw [foldl_cons] at hd'
    by_cases hdrop : drop i
    · rw [if_pos hdrop, u32_eq (by omega)] at hd'
      obtain ⟨hfits, hread⟩ := ih hl' (fits_write hd zero_lt_codes (base + i)) hd'
      refine ⟨hfits, fun k => ?_⟩
      rw [hread k, read_write hd zero_lt_codes]
      by_cases hk : k = base + i
      · simp [hk, hdrop]
      · simp [hk]
    · rw [if_neg hdrop] at hd'
      obtain ⟨hfits, hread⟩ := ih hl' hd hd'
      refine ⟨hfits, fun k => ?_⟩
      rw [hread k]
      simp [hdrop]

theorem selectTop2_congr {mag mag' : ℕ → Magnitude} (h : ∀ i < 4, mag i = mag' i) :
    selectTop2 mag = selectTop2 mag' := by
  simp [selectTop2, h 0 (by omega), h 1 (by omega), h 2 (by omega), h 3 (by omega)]

theorem zeroIdx_le (mag : ℕ → Magnitude) (h : ℕ) : zeroIdx mag h ≤ 1 := by
  unfold zeroIdx
  split <;> omega

variable [Conversions]

theorem pruneGroup_half (hT : perHalf T = true) (hd : Fits T d) {base : ℕ}
    (hbase : base + 4 ≤ 2 ^ 32) {mag : ℕ → Magnitude}
    (hmag : mag = fun i => elementMagnitude T (groupOf T d base i)) :
    pruneGroup T d base =
      write T (write T d (base + zeroIdx mag 0) 0) (base + 2 + zeroIdx mag 2) 0 := by
  have hz := zeroIdx_le mag 0
  have hz' := zeroIdx_le mag 2
  have hhalf : ∀ d' h, h ≤ 2 → (∀ k, base + h ≤ k → read T d' k = read T d k) →
      zeroIdx (fun i => elementMagnitude T (read T d' (u32 i))) (base + h) = zeroIdx mag h := by
    intro d' h hh hread
    rw [zeroIdx, u32_eq (by omega), u32_eq (by omega), hread _ (by omega), hread _ (by omega), hmag]
    rfl
  simp only [pruneGroup, if_pos hT, show List.range 2 = [0, 1] from rfl, foldl_cons,
    foldl_nil, zero_mul, one_mul]
  rw [u32_eq (show base + 0 < 2 ^ 32 by omega), hhalf d 0 (by omega) fun _ _ => rfl, add_zero,
    u32_eq (show base + zeroIdx mag 0 < 2 ^ 32 by omega), u32_eq (show base + 2 < 2 ^ 32 by omega),
    hhalf _ 2 (by omega), u32_eq (by omega)]
  intro k hk
  rw [read_write hd zero_lt_codes, if_neg (by omega)]

theorem read_pruneGroup (hd : Fits T d) {base : ℕ} (hbase : base + 4 ≤ 2 ^ 32) :
    Fits T (pruneGroup T d base) ∧ ∀ k, read T (pruneGroup T d base) k =
      if base ≤ k ∧ k < base + 4 then prunedAt T (groupOf T d base) (k - base)
      else read T d k := by
  by_cases hT : perHalf T = true
  · generalize hmag : (fun i => elementMagnitude T (groupOf T d base i)) = mag
    have hfits := fits_write hd zero_lt_codes (base + zeroIdx mag 0)
    have hz := zeroIdx_le mag 0
    have hz' := zeroIdx_le mag 2
    rw [pruneGroup_half hT hd hbase hmag.symm]
    refine ⟨fits_write hfits zero_lt_codes _, fun k => ?_⟩
    rw [read_write hfits zero_lt_codes, read_write hd zero_lt_codes]
    by_cases hin : base ≤ k ∧ k < base + 4
    · obtain ⟨j, rfl⟩ := Nat.exists_eq_add_of_le hin.1
      rw [if_pos hin, Nat.add_sub_cancel_left, prunedAt, keptAt, if_pos hT, hmag, groupOf]
      have hj : j / 2 = 0 ∨ j / 2 = 1 := by omega
      rcases hj with hj | hj <;> rw [hj]
      · by_cases hzero : j = zeroIdx mag 0
        · rw [← hzero] at hz ⊢
          rw [if_neg (by omega), if_pos rfl, if_neg (by simp)]
        · rw [if_neg (by omega), if_neg (by omega), if_pos (by simpa using hzero)]
      · by_cases hzero : j = 2 + zeroIdx mag 2
        · rw [if_pos (by omega), if_neg (by simpa using hzero)]
        · rw [if_neg (by omega), if_neg (by omega), if_pos (by simpa using hzero)]
    · rw [if_neg hin, if_neg (by omega), if_neg (by omega)]
  · have hT' : perHalf T = false := Bool.not_eq_true _ ▸ hT
    have hmag : selectTop2 (fun i => elementMagnitude T (read T d (u32 (base + i)))) =
        selectTop2 fun i => elementMagnitude T (groupOf T d base i) :=
      selectTop2_congr fun i hi => by rw [u32_eq (by omega), groupOf]
    simp only [pruneGroup, hT', Bool.false_eq_true, if_false, hmag]
    obtain ⟨hfits, hread⟩ :=
      read_zeros (fun i => i ≠ (selectTop2 fun i => elementMagnitude T (groupOf T d base i)).1 ∧
      i ≠ (selectTop2 fun i => elementMagnitude T (groupOf T d base i)).2) hbase (List.range 4)
      (fun i => List.mem_range.mp) hd rfl
    refine ⟨hfits, fun k => (hread k).trans ?_⟩
    by_cases hin : base ≤ k ∧ k < base + 4
    · obtain ⟨j, rfl⟩ := Nat.exists_eq_add_of_le hin.1
      rw [if_pos hin, Nat.add_sub_cancel_left, prunedAt]
      by_cases hkept : keptAt T (groupOf T d base) j = true
      · rw [if_pos hkept, if_neg, groupOf]
        rintro ⟨i, -, hdrop, hij⟩
        have hij' : j = i := by omega
        rw [keptAt_iff hT', hij'] at hkept
        exact hkept.elim hdrop.1 hdrop.2
      · rw [if_neg hkept, if_pos]
        rw [keptAt_iff hT', not_or] at hkept
        exact ⟨j, List.mem_range.mpr (by omega), hkept, rfl⟩
    · rw [if_neg hin, if_neg]
      rintro ⟨i, hi, -, rfl⟩
      have hi' := List.mem_range.mp hi
      omega

theorem read_pruneBlocks (hd : Fits T d) {m : ℕ} (hm : 4 * m ≤ 2 ^ 32) {d' : Cells}
    (hd' : (List.range m).foldl (fun d b => pruneGroup T d (4 * b)) d = d') : Fits T d' ∧
    ∀ k, read T d' k =
      if k < 4 * m then prunedAt T (groupOf T d (4 * (k / 4))) (k % 4) else read T d k := by
  induction m generalizing d' with
  | zero =>
    subst hd'
    exact ⟨hd, fun k => by simp⟩
  | succ m ih =>
    rw [range_succ, foldl_append, foldl_cons, foldl_nil] at hd'
    generalize hd₁ : foldl _ d (List.range m) = d₁ at hd'
    obtain ⟨hfits, hread⟩ := ih (by omega) hd₁
    subst hd'
    obtain ⟨hfits', hread'⟩ := read_pruneGroup hfits (show 4 * m + 4 ≤ 2 ^ 32 by omega)
    refine ⟨hfits', fun k => ?_⟩
    -- the block that is pruned has not been touched before
    have hgroup : groupOf T d₁ (4 * m) = groupOf T d (4 * m) := by
      funext i
      rw [groupOf, groupOf, hread, if_neg (by omega)]
    rw [hread' k, hgroup]
    by_cases hin : 4 * m ≤ k ∧ k < 4 * m + 4
    · have hblock : k / 4 = m := by omega
      have hpos : k - 4 * m = k % 4 := by omega
      rw [if_pos hin, if_pos (by omega), hblock, hpos]
    · rw [if_neg hin, hread]
      by_cases hlt : k < 4 * m
      · rw [if_pos hlt, if_pos (by omega)]
      · rw [if_neg hlt, if_neg (by omega)]

end Prune

structure CompressedTo (T : ElemType) (pruned : Cells) (m : ℕ) (compressed : Cells)
    (metadata : ℕ → ℕ) : Prop where
  fits : Fits T compressed
  block : ∀ b < m, ∃ p, groupPositions (groupOf T pruned (4 * b)) = some p ∧
    metadata b = maskOf p ∧
    read T compressed (2 * b) = groupOf T pruned (4 * b) p.1 ∧
    read T compressed (2 * b + 1) = groupOf T pruned (4 * b) p.2

section Compress

variable {T : ElemType} {pruned compressed : Cells} {metadata : ℕ → ℕ} {colsExpanded : ℕ}

theorem block_offset (k n b : ℕ) : b / n * (k * n) + b % n * k = k * b := by
  rw [mul_left_comm, mul_comm (b % n), ← mul_add, div_add_mod']

theorem compressGroup_eq (hcols : colsExpanded % 4 = 0) {b : ℕ} (hb : 4 * b + 4 ≤ 2 ^ 32) :
    compressGroup T pruned colsExpanded (b / (colsExpanded / 4)) (b % (colsExpanded / 4))
      (some (compressed, metadata)) = (groupPositions (groupOf T pruned (4 * b))).map fun p =>
        (write T (write T compressed (2 * b) (groupOf T pruned (4 * b) p.1)) (2 * b + 1)
          (groupOf T pruned (4 * b) p.2), update metadata b (maskOf p)) := by
  obtain ⟨n, rfl⟩ := dvd_of_mod_eq_zero hcols
  have hhalf : 4 * n / 2 = 2 * n := by omega
  have hquarter : 4 * n / 4 = n := by omega
  have hvalue : ∀ i < 4, read T pruned (u32 (4 * b + i)) = groupOf T pruned (4 * b) i := by
    intro i hi
    rw [u32_eq (by omega), groupOf]
  simp only [compressGroup, bind_some, hhalf, hquarter, block_offset, div_add_mod',
    u32_eq (show 2 * b < 2 ^ 32 by omega),
    u32_eq (show 2 * b + 1 < 2 ^ 32 by omega), u32_eq (show b < 2 ^ 32 by omega)]
  have hsame : scanGroup (fun i => read T pruned (u32 (4 * b + i))) =
      scanGroup (groupOf T pruned (4 * b)) :=
    scanGroup_congr fun i hi => by rw [hvalue i hi]
  rw [hsame]
  cases hscan : scanGroup (groupOf T pruned (4 * b)) with
  | none => simp [groupPositions, hscan]
  | some p =>
    have hpos : groupPositions (groupOf T pruned (4 * b)) = some (padGroup p.1 p.2) := by
      simp [groupPositions, hscan]
    have hcovers := groupPositions_covers hpos
    rw [hpos, map_some, map_some, hvalue _ (by have := hcovers.lt; have := hcovers.lt_four; omega),
      hvalue _ hcovers.lt_four]
    rfl

theorem CompressedTo.step {m : ℕ} (h : CompressedTo T pruned m compressed metadata)
    (hpruned : Fits T pruned) {p : ℕ × ℕ}
    (hp : groupPositions (groupOf T pruned (4 * m)) = some p) : CompressedTo T pruned (m + 1)
      (write T (write T compressed (2 * m) (groupOf T pruned (4 * m) p.1)) (2 * m + 1)
        (groupOf T pruned (4 * m) p.2)) (update metadata m (maskOf p)) := by
  have hcode : ∀ i, groupOf T pruned (4 * m) i < 2 ^ T.codeBits := fun i => read_lt hpruned _
  have hfits := fits_write h.fits (hcode p.1) (2 * m)
  refine ⟨fits_write hfits (hcode p.2) _, fun b hb => ?_⟩
  simp only [read_write hfits (hcode p.2), read_write h.fits (hcode p.1)]
  by_cases hbm : b = m
  · subst hbm
    refine ⟨p, hp, update_self .., ?_, ?_⟩
    · rw [if_neg (by omega), if_pos rfl]
    · rw [if_pos rfl]
  · obtain ⟨p', hp', hmask, h0, h1⟩ := h.block b (by omega)
    refine ⟨p', hp', ?_, ?_, ?_⟩
    · rw [update_of_ne hbm, hmask]
    · rw [if_neg (by omega), if_neg (by omega), h0]
    · rw [if_neg (by omega), if_neg (by omega), h1]

theorem compressBlocks_spec (hcols : colsExpanded % 4 = 0) (hpruned : Fits T pruned)
    (hfits : Fits T compressed) {m : ℕ} (hm : 4 * m ≤ 2 ^ 32) :
    match (List.range m).foldl (fun s b =>
      compressGroup T pruned colsExpanded (b / (colsExpanded / 4))
      (b % (colsExpanded / 4)) s) (some (compressed, fun _ => 0)) with
    | some (c, md) => CompressedTo T pruned m c md
    | none => ∃ b < m, groupPositions (groupOf T pruned (4 * b)) = none := by
  induction m with
  | zero => exact ⟨hfits, fun b hb => absurd hb (by omega)⟩
  | succ m ih =>
    have ih' := ih (by omega)
    rw [range_succ, foldl_append, foldl_cons, foldl_nil]
    revert ih'
    generalize foldl _ _ (List.range m) = s
    intro ih'
    match s, ih' with
    | none, hfail =>
      obtain ⟨b, hb, hnone⟩ := hfail
      exact ⟨b, by omega, hnone⟩
    | some (c, md), hto =>
      rw [compressGroup_eq hcols (by omega)]
      cases hpos : groupPositions (groupOf T pruned (4 * m)) with
      | none => exact ⟨m, by omega, hpos⟩
      | some p => exact hto.step hpruned hpos

end Compress

def digit (elemBits word j : ℕ) : ℕ := (word >>> (j * elemBits)) % 2 ^ elemBits

section Gather

variable {elemBits : ℕ}

theorem digit_eq (word j : ℕ) :
    digit elemBits word j = word / 2 ^ (j * elemBits) % 2 ^ elemBits := by
  rw [digit, shiftRight_eq_div_pow]

theorem or_shift {out m v : ℕ} (hout : out < 2 ^ (m * elemBits)) :
    out ||| v <<< (m * elemBits) = v * 2 ^ (m * elemBits) + out := by
  rw [Nat.or_comm, ← Nat.shiftLeft_add_eq_or_of_lt hout, Nat.shiftLeft_eq]

theorem digit_or_shift {out m v : ℕ} (hout : out < 2 ^ (m * elemBits)) (hv : v < 2 ^ elemBits) :
    (∀ t < m, digit elemBits (out ||| v <<< (m * elemBits)) t = digit elemBits out t) ∧
    digit elemBits (out ||| v <<< (m * elemBits)) m = v ∧
    out ||| v <<< (m * elemBits) < 2 ^ ((m + 1) * elemBits) := by
  rw [or_shift hout]
  refine ⟨fun t ht => ?_, ?_, ?_⟩
  · have hpow : 2 ^ (m * elemBits) =
        2 ^ ((m - t - 1) * elemBits) * 2 ^ elemBits * 2 ^ (t * elemBits) := by
      rw [← pow_add, ← pow_add]
      congr 1
      obtain ⟨u, rfl⟩ := Nat.exists_eq_add_of_lt ht
      rw [show t + u + 1 - t - 1 = u by omega]
      ring
    rw [digit_eq, digit_eq, hpow, ← mul_assoc, add_comm,
      Nat.add_mul_div_right _ _ (Nat.two_pow_pos _), ← mul_assoc, add_mul_mod_self_right]
  · rw [digit_eq, add_comm, Nat.add_mul_div_right _ _ (Nat.two_pow_pos _), Nat.div_eq_of_lt hout,
      zero_add, mod_eq_of_lt hv]
  · calc v * 2 ^ (m * elemBits) + out < (v + 1) * 2 ^ (m * elemBits) := by
          rw [add_mul, one_mul]
          omega
      _ ≤ 2 ^ elemBits * 2 ^ (m * elemBits) := mul_le_mul_right _ hv
      _ = 2 ^ ((m + 1) * elemBits) := by rw [← pow_add]; ring_nf

theorem onesBelow_succ (mask n : ℕ) :
    onesBelow mask (n + 1) = onesBelow mask n + (mask.testBit n).toNat := by
  rw [onesBelow, onesBelow, range_succ, countP_append]
  cases h : mask.testBit n <;> simp [h]

theorem gather_sum (F : ℕ → ℕ → ℚ) (bword mask : ℕ) {s : ℕ × ℕ}
    (hs : s.1 < 2 ^ (s.2 * elemBits)) {n : ℕ}
    (hroom : (s.2 + onesBelow mask n) * elemBits ≤ 32) {s' : ℕ × ℕ}
    (hs' : (List.range n).foldl (fun (s : ℕ × ℕ) i =>
      if mask.testBit i then
        (s.1 ||| u32 (((bword >>> (i * elemBits)) &&& (2 ^ elemBits - 1)) <<< (s.2 * elemBits)),
          s.2 + 1)
      else s) s = s') :
    s'.2 = s.2 + onesBelow mask n ∧ s'.1 < 2 ^ (s'.2 * elemBits) ∧
      ∑ t ∈ range s'.2, F t (digit elemBits s'.1 t) =
        ∑ t ∈ range s.2, F t (digit elemBits s.1 t) + ∑ p ∈ range n,
          if mask.testBit p then F (s.2 + onesBelow mask p) (digit elemBits bword p) else 0 := by
  induction n generalizing s' with
  | zero =>
    subst hs'
    exact ⟨rfl, hs, by simp⟩
  | succ n ih =>
    rw [onesBelow_succ] at hroom
    rw [range_succ, foldl_append, foldl_cons, foldl_nil] at hs'
    rw [← hs', onesBelow_succ]
    generalize hs₁ : foldl _ s (List.range n) = s'
    obtain ⟨hcount, hlt, hsum⟩ := ih (le_trans (mul_le_mul_right _ (by omega)) hroom) hs₁
    cases hbit : mask.testBit n with
    | false =>
      simp only [Bool.false_eq_true, if_false, Bool.toNat_false, add_zero]
      refine ⟨hcount, hlt, ?_⟩
      rw [hsum, sum_range_succ, hbit]
      simp
    | true =>
      rw [hbit, Bool.toNat_true] at hroom
      have hv : (bword >>> (n * elemBits)) &&& (2 ^ elemBits - 1) = digit elemBits bword n :=
        and_two_pow_sub_one_eq_mod _ _
      have hdigit : digit elemBits bword n < 2 ^ elemBits := Nat.mod_lt _ (Nat.two_pow_pos _)
      obtain ⟨hlow, htop, hlt'⟩ := digit_or_shift hlt hdigit
      have hfit : digit elemBits bword n <<< (s'.2 * elemBits) < 2 ^ 32 := by
        calc digit elemBits bword n <<< (s'.2 * elemBits)
          _ ≤ s'.1 ||| digit elemBits bword n <<< (s'.2 * elemBits) := right_le_or
          _ < 2 ^ ((s'.2 + 1) * elemBits) := hlt'
          _ ≤ 2 ^ 32 := Nat.pow_le_pow_right (by omega) (by rw [hcount]; exact hroom)
      simp only [if_true, hv, u32_eq hfit, Bool.toNat_true]
      refine ⟨by omega, hlt', ?_⟩
      have hlowsum : ∑ t ∈ range s'.2,
          F t (digit elemBits (s'.1 ||| digit elemBits bword n <<< (s'.2 * elemBits)) t) =
          ∑ t ∈ range s'.2, F t (digit elemBits s'.1 t) :=
        sum_congr rfl fun t ht => by rw [hlow t (mem_range.mp ht)]
      rw [sum_range_succ, htop, hlowsum, hsum, sum_range_succ _ n, hbit, if_pos rfl, hcount,
        add_assoc]

section
variable (flag : ℕ → Bool)
include flag

def maskWord (perWord w : ℕ) : ℕ := ofBits fun j : Fin perWord => flag (w * perWord + j)

def flagged (k : ℕ) : ℕ := (List.range k).countP flag

theorem flagged_add (k n : ℕ) :
    flagged flag (k + n) = flagged flag k + flagged (fun j => flag (k + j)) n := by
  rw [flagged, flagged, flagged, List.range_add, countP_append, List.countP_map]
  rfl

theorem onesBelow_maskWord (perWord w : ℕ) {n : ℕ} (hn : n ≤ perWord) :
    onesBelow (maskWord flag perWord w) n = flagged (fun j => flag (w * perWord + j)) n := by
  refine List.countP_congr fun j hj => ?_
  have hj' := List.mem_range.mp hj
  rw [maskWord, Nat.testBit_ofBits_lt _ _ (show j < perWord by omega)]

theorem popcount_maskWord {perWord : ℕ} (w : ℕ) (hper : perWord ≤ 32) :
    popcount (maskWord flag perWord w) = flagged (fun j => flag (w * perWord + j)) perWord := by
  obtain ⟨rest, hrest⟩ := Nat.exists_eq_add_of_le hper
  have hzero : (List.range rest).countP
      ((fun i => (maskWord flag perWord w).testBit i) ∘ fun x => perWord + x) = 0 := by
    rw [List.countP_eq_zero]
    intro j _
    simp only [comp_apply, maskWord, testBit_ofBits_ge _ _ (le_add_right perWord j)]
    decide
  rw [← onesBelow_maskWord flag perWord w (le_refl perWord), popcount, hrest, List.range_add,
    countP_append, List.countP_map, hzero]
  rfl

end

theorem sum_two_words {perWord : ℕ} (f : ℕ → ℚ) :
    ∑ p ∈ range (2 * perWord), f p = ∑ p ∈ range perWord, f p + ∑ p ∈ range perWord,
      f (perWord + p) := by
  rw [two_mul, sum_range_add]

theorem word_div {n p : ℕ} (hp : p < n) (w : ℕ) :
    (w * n + p) / n = w ∧ (w * n + p) % n = p := by
  rw [mul_comm, mul_add_div (by omega), mul_add_mod, Nat.div_eq_of_lt hp, mod_eq_of_lt hp]
  exact ⟨add_zero w, rfl⟩

theorem gather_pair (F : ℕ → ℕ → ℚ) (flag : ℕ → Bool) (bword : ℕ → ℕ)
    {perWord z : ℕ} (hper : perWord = 32 / elemBits) (hwhole : perWord * elemBits = 32)
    (hflag : flagged flag ((2 * z + 2) * perWord) = flagged flag (2 * z * perWord) + perWord) :
    ∃ out, gatherSparse (bword (2 * z)) (bword (2 * z + 1)) (maskWord flag perWord (2 * z))
        (maskWord flag perWord (2 * z + 1)) elemBits = some out ∧
      ∑ t ∈ range perWord, F t (digit elemBits out t) = ∑ p ∈ range (2 * perWord),
        if flag (2 * z * perWord + p) then
          F (flagged flag (2 * z * perWord + p) - flagged flag (2 * z * perWord))
            (digit elemBits (bword ((2 * z * perWord + p) / perWord))
              ((2 * z * perWord + p) % perWord))
        else 0 := by
  have hper32 : perWord ≤ 32 := by
    rw [hper]
    exact div_le_self _ _
  have hlo := onesBelow_maskWord flag perWord (2 * z) (le_refl perWord)
  have hhi := onesBelow_maskWord flag perWord (2 * z + 1) (le_refl perWord)
  have hsplit : flagged (fun j => flag (2 * z * perWord + j)) perWord +
      flagged (fun j => flag ((2 * z + 1) * perWord + j)) perWord = perWord := by
    have h1 := flagged_add flag (2 * z * perWord) perWord
    have h2 := flagged_add flag ((2 * z + 1) * perWord) perWord
    rw [show 2 * z * perWord + perWord = (2 * z + 1) * perWord by ring] at h1
    rw [show (2 * z + 1) * perWord + perWord = (2 * z + 2) * perWord by ring] at h2
    omega
  have hpop : popcount (maskWord flag perWord (2 * z)) +
      popcount (maskWord flag perWord (2 * z + 1)) = 32 / elemBits := by
    rw [popcount_maskWord flag _ hper32, popcount_maskWord flag _ hper32, hsplit, hper]
  subst hper
  refine ⟨_, if_pos hpop, ?_⟩
  generalize hs₀ : gatherWord _ _ elemBits (0, 0) = s₀
  generalize hs₁ : gatherWord _ _ elemBits s₀ = s₁
  obtain ⟨hcount0, hlt0, hsum0⟩ :=
    gather_sum F _ _
      (show ((0, 0) : ℕ × ℕ).1 < 2 ^ (((0, 0) : ℕ × ℕ).2 * elemBits) by simp)
      (le_trans (mul_le_mul_right _ (by omega)) hwhole.le) hs₀
  obtain ⟨hcount1, -, hsum1⟩ :=
    gather_sum F _ _ hlt0 (le_trans (mul_le_mul_right _ (by omega)) hwhole.le) hs₁
  rw [show s₁.2 = 32 / elemBits by omega] at hsum1
  rw [hsum1, hsum0, sum_two_words, range_zero, sum_empty, zero_add]
  congr 1
  · refine sum_congr rfl fun p hp => ?_
    have hp' := mem_range.mp hp
    have hones := onesBelow_maskWord flag (32 / elemBits) (2 * z) hp'.le
    have hcnt := flagged_add flag (2 * z * (32 / elemBits)) p
    obtain ⟨hdiv, hmod⟩ := word_div hp' (2 * z)
    rw [hdiv, hmod, maskWord, Nat.testBit_ofBits_lt _ _ hp', ← maskWord, hones, hcnt,
      Nat.add_sub_cancel_left, zero_add]
  · refine sum_congr rfl fun p hp => ?_
    have hp' := mem_range.mp hp
    have hones := onesBelow_maskWord flag (32 / elemBits) (2 * z + 1) hp'.le
    have hcnt := flagged_add flag (2 * z * (32 / elemBits)) (32 / elemBits)
    have hcnt' := flagged_add flag ((2 * z + 1) * (32 / elemBits)) p
    have hnext : 2 * z * (32 / elemBits) + (32 / elemBits) = (2 * z + 1) * (32 / elemBits) := by
      ring
    obtain ⟨hdiv, hmod⟩ := word_div hp' (2 * z + 1)
    rw [hnext] at hcnt
    rw [← add_assoc, hnext, hdiv, hmod, maskWord, Nat.testBit_ofBits_lt _ _ hp',
      ← maskWord, hones, hcount0, hlo, hcnt', hcnt, zero_add, add_assoc, Nat.add_sub_cancel_left]

end Gather

def rowMask (metadata : ℕ → ℕ) (groups row g : ℕ) : ℕ :=
  if g < groups then metadata (row * groups + g) else 3

def rowFlag (metadata : ℕ → ℕ) (groups row k : ℕ) : Bool :=
  (rowMask metadata groups row (k / 4)).testBit (k % 4)

def rowValue (T : ElemType) (compressed : Cells) (groups row e : ℕ) : ℕ :=
  if e < 2 * groups then read T compressed (row * (2 * groups) + e) else 0

def elemsPerWord (T : ElemType) : ℕ := 32 / T.bits

def wordPairs (T : ElemType) (groups : ℕ) : ℕ :=
  (4 * groups + 2 * elemsPerWord T - 1) / (2 * elemsPerWord T)

/-- The compressed values of a row times the elements that the gather picks from the words of any
dense operand are the product with the pruned row, whatever numbers the codes stand for. -/
def GathersProduct (T : ElemType) (pruned compressed : Cells) (metadata : ℕ → ℕ)
    (groups row : ℕ) : Prop :=
  ∀ (bword : ℕ → ℕ) (va vb : ℕ → ℚ), va 0 = 0 → ∃ out : ℕ → ℕ,
    (∀ z < wordPairs T groups, gatherSparse (bword (2 * z)) (bword (2 * z + 1))
      (maskWord (rowFlag metadata groups row) (elemsPerWord T) (2 * z))
      (maskWord (rowFlag metadata groups row) (elemsPerWord T) (2 * z + 1)) T.bits =
      some (out z)) ∧
    ∑ z ∈ range (wordPairs T groups), ∑ t ∈ range (elemsPerWord T),
      va (rowValue T compressed groups row (z * elemsPerWord T + t)) * vb (digit T.bits (out z) t) =
    ∑ k ∈ range (4 * groups), va (read T pruned (row * (4 * groups) + k)) *
      vb (digit T.bits (bword (k / elemsPerWord T)) (k % elemsPerWord T))

section Rows

variable {T : ElemType} {pruned compressed : Cells} {metadata : ℕ → ℕ} {groups row : ℕ}

theorem elemsPerWord_cases (T : ElemType) : elemsPerWord T * T.bits = 32 ∧ 0 < elemsPerWord T ∧
    (perHalf T = true ∧ elemsPerWord T = 1 ∨ perHalf T = false ∧ elemsPerWord T % 2 = 0) := by
  cases T <;> decide

theorem flagged_groups {mask : ℕ → ℕ} (hmask : ∀ g, onesBelow (mask g) 4 = 2)
    (g : ℕ) {i : ℕ} (hi : i ≤ 4) :
    flagged (fun k => (mask (k / 4)).testBit (k % 4)) (4 * g + i) =
      2 * g + onesBelow (mask g) i := by
  have hgroup : ∀ g i, i ≤ 4 →
      flagged (fun j => (mask ((4 * g + j) / 4)).testBit ((4 * g + j) % 4)) i =
      onesBelow (mask g) i := by
    intro g i hi
    refine List.countP_congr fun j hj => ?_
    have hj' := List.mem_range.mp hj
    rw [show (4 * g + j) / 4 = g by omega, show (4 * g + j) % 4 = j by omega]
  have hwhole : flagged (fun k => (mask (k / 4)).testBit (k % 4)) (4 * g) = 2 * g := by
    induction g with
    | zero => rfl
    | succ g ih => rw [mul_succ, flagged_add, ih, hgroup g 4 (le_refl 4), hmask g, mul_succ]
  rw [flagged_add, hwhole, hgroup g i hi]

section
variable (hflags : ∀ g < groups, TwoFlags T (metadata (row * groups + g)))
include hflags

theorem rowMask_flags (g : ℕ) : onesBelow (rowMask metadata groups row g) 4 = 2 := by
  unfold rowMask
  split
  · rename_i h
    exact (hflags g h).2.1
  · decide

theorem flagged_row (g : ℕ) {i : ℕ} (hi : i ≤ 4) :
    flagged (rowFlag metadata groups row) (4 * g + i) =
      2 * g + onesBelow (rowMask metadata groups row g) i :=
  flagged_groups (rowMask_flags hflags) g hi

theorem flagged_pairs {z : ℕ} (hz : z ≤ wordPairs T groups) :
    flagged (rowFlag metadata groups row) (2 * z * elemsPerWord T) = z * elemsPerWord T := by
  obtain ⟨-, hpos, ⟨hT, hone⟩ | ⟨_, heven⟩⟩ := elemsPerWord_cases T
  · have hz' : z ≤ 2 * groups := by
      rw [wordPairs, hone] at hz
      omega
    have hsplit : 2 * z * elemsPerWord T = 4 * (z / 2) + 2 * (z % 2) := by
      rw [hone]
      omega
    rw [hsplit, flagged_row hflags _ (by omega), hone]
    rcases mod_two_eq_zero_or_one z with h | h
    · rw [h]
      simp only [mul_zero, onesBelow, List.range_zero, countP_nil]
      omega
    · have hlt : z / 2 < groups := by omega
      rw [h, mul_one, rowMask, if_pos hlt, (hflags _ hlt).2.2 hT]
      omega
  · obtain ⟨m, hm⟩ := dvd_of_mod_eq_zero heven
    have h := flagged_row (T := T) hflags (z * m) (zero_le 4)
    rw [hm, show 2 * z * (2 * m) = 4 * (z * m) + 0 by ring, h]
    simp only [onesBelow, List.range_zero, countP_nil]
    ring

end

theorem onesBelow_lt {mask i : ℕ} (hi : i < 4) (hmask : onesBelow mask 4 = 2)
    (hbit : mask.testBit i = true) : onesBelow mask i < 2 := by
  have hmono : onesBelow mask (i + 1) ≤ onesBelow mask 4 :=
    List.Sublist.countP_le (List.range_sublist.mpr (by omega))
  rw [onesBelow_succ, hbit, Bool.toNat_true, hmask] at hmono
  omega

theorem sum_blocks (f : ℕ → ℚ) (n m : ℕ) :
    ∑ z ∈ range n, ∑ p ∈ range m, f (z * m + p) = ∑ k ∈ range (n * m), f k := by
  induction n with
  | zero => simp
  | succ n ih => rw [sum_range_succ, ih, succ_mul, sum_range_add]

theorem sum_trailing {n m : ℕ} (hnm : n ≤ m) (f : ℕ → ℚ)
    (hf : ∀ k, n ≤ k → f k = 0) : ∑ k ∈ range m, f k = ∑ k ∈ range n, f k := by
  obtain ⟨r, rfl⟩ := Nat.exists_eq_add_of_le hnm
  rw [sum_range_add, sum_eq_zero (s := range r) fun k _ => hf _ (le_add_right n k), add_zero]

section
variable (hflags : ∀ g < groups, TwoFlags T (metadata (row * groups + g)))
  (hscatter : ∀ g < groups, ∀ i < 4, groupOf T pruned (4 * (row * groups + g)) i =
    if (metadata (row * groups + g)).testBit i then
      read T compressed (2 * (row * groups + g) + onesBelow (metadata (row * groups + g)) i) else 0)
include hflags hscatter

theorem row_scatter (k : ℕ) :
    (if k < 4 * groups then read T pruned (row * (4 * groups) + k) else 0) =
      if rowFlag metadata groups row k then
        rowValue T compressed groups row (flagged (rowFlag metadata groups row) k) else 0 := by
  have hcount := flagged_row (T := T) hflags (k / 4) (show k % 4 ≤ 4 by omega)
  rw [div_add_mod] at hcount
  rw [hcount]
  by_cases hk : k < 4 * groups
  · have hg : k / 4 < groups := by omega
    have h := hscatter (k / 4) hg (k % 4) (by omega)
    rw [groupOf, show 4 * (row * groups + k / 4) + k % 4 = row * (4 * groups) + k by
      rw [mul_add, add_assoc, div_add_mod]
      ring] at h
    rw [if_pos hk, h, rowFlag, rowMask, if_pos hg]
    cases hbit : (metadata (row * groups + k / 4)).testBit (k % 4) with
    | false => rfl
    | true =>
      have hlt := onesBelow_lt (by omega) (hflags _ hg).2.1 hbit
      rw [if_pos rfl, if_pos rfl, rowValue, if_pos (by omega)]
      congr 1
      ring
  · have hbeyond : rowValue T compressed groups row
        (2 * (k / 4) + onesBelow (rowMask metadata groups row (k / 4)) (k % 4)) = 0 :=
          if_neg (by omega)
    rw [if_neg hk, hbeyond, ite_self]

theorem gathersProduct : GathersProduct T pruned compressed metadata groups row := by
  intro bword va vb hzero
  obtain ⟨hwhole, hpos, -⟩ := elemsPerWord_cases T
  generalize hflag : rowFlag metadata groups row = flag
  -- what one pair of words contributes
  have hpair : ∀ z, ∃ out, z < wordPairs T groups →
      gatherSparse (bword (2 * z)) (bword (2 * z + 1)) (maskWord flag (elemsPerWord T) (2 * z))
        (maskWord flag (elemsPerWord T) (2 * z + 1)) T.bits = some out ∧
      ∑ t ∈ range (elemsPerWord T),
      va (rowValue T compressed groups row (z * elemsPerWord T + t)) * vb (digit T.bits out t) =
        ∑ p ∈ range (2 * elemsPerWord T),
          (fun k => va (if k < 4 * groups then read T pruned (row * (4 * groups) + k) else 0) *
            vb (digit T.bits (bword (k / elemsPerWord T)) (k % elemsPerWord T)))
            (z * (2 * elemsPerWord T) + p) := by
    intro z
    by_cases hz : z < wordPairs T groups
    · have hbefore := flagged_pairs (T := T) hflags hz.le
      have hafter := flagged_pairs (T := T) hflags (show z + 1 ≤ wordPairs T groups by omega)
      rw [hflag] at hbefore hafter
      have hhalf : flagged flag ((2 * z + 2) * elemsPerWord T) =
          flagged flag (2 * z * elemsPerWord T) + elemsPerWord T := by
        rw [show 2 * z + 2 = 2 * (z + 1) by ring, hafter, hbefore, succ_mul]
      obtain ⟨out, hout, hsum⟩ := gather_pair
        (fun t x => va (rowValue T compressed groups row (z * elemsPerWord T + t)) * vb x)
        flag bword
        (show elemsPerWord T = 32 / T.bits from rfl) hwhole hhalf
      refine ⟨out, fun _ => ⟨hout, hsum.trans (sum_congr rfl fun p _ => ?_)⟩⟩
      have hk : 2 * z * elemsPerWord T + p = z * (2 * elemsPerWord T) + p := by ring
      have hcount := flagged_add flag (2 * z * elemsPerWord T) p
      have hscat := row_scatter hflags hscatter (2 * z * elemsPerWord T + p)
      rw [hflag] at hscat
      simp only [← hk, hscat]
      cases hbit : flag (2 * z * elemsPerWord T + p) with
      | false => rw [if_neg Bool.false_ne_true, if_neg Bool.false_ne_true, hzero, zero_mul]
      | true =>
        rw [if_pos rfl, if_pos rfl, hcount, Nat.add_sub_cancel_left, hbefore]
    · exact ⟨0, fun h => absurd h hz⟩
  choose out hout using hpair
  refine ⟨out, fun z hz => (hout z hz).1, ?_⟩
  rw [sum_congr rfl fun z hz => (hout z (mem_range.mp hz)).2, sum_blocks (fun k =>
    va (if k < 4 * groups then read T pruned (row * (4 * groups) + k) else 0) *
      vb (digit T.bits (bword (k / elemsPerWord T)) (k % elemsPerWord T)))]
  have hcover : 4 * groups ≤ wordPairs T groups * (2 * elemsPerWord T) := by
    have h :=
      lt_mul_div_succ (4 * groups + 2 * elemsPerWord T - 1) (show 0 < 2 * elemsPerWord T by omega)
    rw [← wordPairs, mul_succ] at h
    rw [mul_comm (wordPairs T groups)]
    omega
  rw [sum_trailing hcover _ fun k hk => by rw [if_neg (by omega), hzero, zero_mul]]
  refine sum_congr rfl fun k hk => ?_
  rw [if_pos (mem_range.mp hk)]

end

end Rows

def columns (T : ElemType) (cols : ℕ) : ℕ := if T.bits < 8 then cols * (8 / T.bits) else cols

/-- What pruning, compression and the gather make of a matrix of so many groups in a row. -/
structure SparseProduct (T : ElemType) (dense pruned compressed : Cells) (metadata : ℕ → ℕ)
    (rows groups : ℕ) : Prop where
  keeps : ∀ b < rows * groups, KeepsLargest T (groupOf T dense (4 * b)) (groupOf T pruned (4 * b))
  flags : ∀ b < rows * groups, TwoFlags T (metadata b)
  scatter : ∀ b < rows * groups, ∀ i < 4, groupOf T pruned (4 * b) i =
    if (metadata b).testBit i then read T compressed (2 * b + onesBelow (metadata b) i) else 0
  product : ∀ row < rows, GathersProduct T pruned compressed metadata groups row

/-- Both functions succeed and the product with any dense operand is that of the pruned matrix. -/
def SparseRoundTrip [Conversions] (T : ElemType) (dense output : Cells) (rows cols : ℕ) : Prop :=
  ∃ pruned compressed metadata, prune2to4Matrix T dense rows cols = some pruned ∧
    compress2to4Matrix T output pruned rows cols = some (compressed, metadata) ∧
    SparseProduct T dense pruned compressed metadata rows (columns T cols / 4)

/-- The matrix is addressed by 32-bit offsets, and its columns are whole groups. -/
structure Addressable (T : ElemType) (rows cols : ℕ) : Prop where
  whole : columns T cols % 4 = 0
  width : columns T cols < 2 ^ 32
  size : rows * columns T cols ≤ 2 ^ 32

/-- The signs in a group agree with the order of the codes; of 32-bit types the second half is not
all zero. -/
def GroupOk (T : ElemType) (c : ℕ → ℕ) : Prop :=
  SignsAgree T c ∧ (perHalf T = true → c 2 ≠ 0 ∨ c 3 ≠ 0)

instance (T : ElemType) (c : ℕ → ℕ) : Decidable (GroupOk T c) := by
  unfold GroupOk
  infer_instance

section Matrices

variable {T : ElemType} {dense output : Cells} {rows cols : ℕ}

section
variable (h : Addressable T rows cols)
include h

theorem Addressable.expandedCols_eq : expandedCols T cols = columns T cols := by
  have hw := h.width
  unfold expandedCols
  unfold columns at hw ⊢
  split
  · rename_i hT
    rw [if_pos hT] at hw
    exact u32_eq hw
  · rfl

theorem Addressable.blocks : 4 * (rows * (columns T cols / 4)) ≤ 2 ^ 32 := by
  have hsize := h.size
  have hcols : columns T cols = 4 * (columns T cols / 4) := by
    have := h.whole
    omega
  rw [hcols, mul_left_comm] at hsize
  exact hsize

theorem prune_spec [Conversions] (hd : Fits T dense) : ∃ pruned,
    prune2to4Matrix T dense rows cols = some pruned ∧ Fits T pruned ∧
    ∀ b < rows * (columns T cols / 4), ∀ i < 4,
      groupOf T pruned (4 * b) i = prunedAt T (groupOf T dense (4 * b)) i := by
  have hblocks := h.blocks
  obtain ⟨hfits, hread⟩ := read_pruneBlocks hd hblocks rfl
  refine ⟨_, ?_, hfits, fun b hb i hi => ?_⟩
  · have hwhole := h.whole
    simp only [prune2to4Matrix, h.expandedCols_eq, hwhole, ne_eq, not_true_eq_false, if_false,
      overGroups_eq, some_inj]
    refine List.foldl_ext _ _ _ fun d b hb => ?_
    have hb' := List.mem_range.mp hb
    have hbase := block_offset 4 (columns T cols / 4) b
    rw [Nat.mul_div_cancel' (dvd_of_mod_eq_zero hwhole)] at hbase
    rw [hbase, u32_eq (by omega)]
  · rw [groupOf, hread, if_pos (by omega), show (4 * b + i) / 4 = b by omega,
      show (4 * b + i) % 4 = i by omega]

theorem compress_spec {pruned : Cells} (hpruned : Fits T pruned) (hout : Fits T output) :
    match compress2to4Matrix T output pruned rows cols with
    | some (c, md) => CompressedTo T pruned (rows * (columns T cols / 4)) c md
    | none => ∃ b < rows * (columns T cols / 4),
        groupPositions (groupOf T pruned (4 * b)) = none := by
  have hwhole := h.whole
  simp only [compress2to4Matrix, h.expandedCols_eq, hwhole, ne_eq, not_true_eq_false, if_false,
    overGroups_eq]
  exact compressBlocks_spec hwhole hpruned hout h.blocks

end

theorem KeepsLargest.few {c q : ℕ → ℕ} (h : KeepsLargest T c q) :
    min (q 0) 1 + min (q 1) 1 + min (q 2) 1 + min (q 3) 1 ≤ 2 ∧
    (perHalf T = true → (q 0 = 0 ∨ q 1 = 0) ∧ (q 2 = 0 ∨ q 3 = 0)) := by
  obtain ⟨keep, hcount, hval, -⟩ := h
  have hle : ∀ i < 4, min (q i) 1 ≤ (keep i).toNat := by
    intro i hi
    rw [hval i hi]
    cases keep i <;> simp
  have h0 := hle 0 (by omega)
  have h1 := hle 1 (by omega)
  have h2 := hle 2 (by omega)
  have h3 := hle 3 (by omega)
  by_cases hT : perHalf T = true
  · rw [if_pos hT] at hcount
    obtain ⟨hlow, hhigh⟩ := hcount
    have hlow' : (keep 0).toNat + (keep 1).toNat = 1 := by
      cases hk0 : keep 0 <;> cases hk1 : keep 1 <;> simp_all
    have hhigh' : (keep 2).toNat + (keep 3).toNat = 1 := by
      cases hk2 : keep 2 <;> cases hk3 : keep 3 <;> simp_all
    exact ⟨by omega, fun _ => ⟨by omega, by omega⟩⟩
  · rw [if_neg hT] at hcount
    have hsum : (List.range 4).countP keep = (keep 0).toNat + (keep 1).toNat + (keep 2).toNat +
        (keep 3).toNat := by
      rw [show List.range 4 = [0, 1, 2, 3] from rfl]
      simp only [List.countP_cons, countP_nil]
      cases keep 0 <;> cases keep 1 <;> cases keep 2 <;> cases keep 3 <;> rfl
    exact ⟨by omega, fun hT' => absurd hT' hT⟩

theorem KeepsLargest.congr {c q q' : ℕ → ℕ} (hq : ∀ i < 4, q i = q' i)
    (h : KeepsLargest T c q) : KeepsLargest T c q' := by
  obtain ⟨keep, hcount, hval, hge⟩ := h
  exact ⟨keep, hcount, fun i hi => (hq i hi).symm.trans (hval i hi), hge⟩

section
variable {pruned compressed : Cells} {metadata : ℕ → ℕ} {m b : ℕ}
  (h : CompressedTo T pruned m compressed metadata) (hb : b < m)
include h hb

theorem CompressedTo.scatter {i : ℕ} (hi : i < 4) : groupOf T pruned (4 * b) i =
      if (metadata b).testBit i then read T compressed (2 * b + onesBelow (metadata b) i)
      else 0 := by
  obtain ⟨p, hp, hmask, h0, h1⟩ := h.block b hb
  have hcovers := groupPositions_covers hp
  obtain ⟨-, -, -, hfst, hsnd, hbits⟩ := maskOf_flags hcovers.lt hcovers.lt_four
  rw [hmask]
  by_cases hbit : (maskOf p).testBit i = true
  · rw [if_pos hbit]
    rcases (hbits i hi).mp hbit with rfl | rfl
    · rw [hfst, add_zero, h0]
    · rw [hsnd, h1]
  · rw [if_neg hbit]
    by_contra hne
    exact hbit ((hbits i hi).mpr (hcovers.mem i hi hne))

theorem CompressedTo.half
    (hfew : (groupOf T pruned (4 * b) 0 = 0 ∨ groupOf T pruned (4 * b) 1 = 0) ∧
      (groupOf T pruned (4 * b) 2 = 0 ∨ groupOf T pruned (4 * b) 3 = 0)) :
    onesBelow (metadata b) 2 = 1 ↔
    ¬ (groupOf T pruned (4 * b) 2 = 0 ∧ groupOf T pruned (4 * b) 3 = 0) := by
  obtain ⟨p, hp, hmask, -⟩ := h.block b hb
  have hcovers := groupPositions_covers hp
  obtain ⟨-, -, hhalf, -⟩ := maskOf_flags hcovers.lt hcovers.lt_four
  rw [hmask, hhalf]
  constructor
  · rintro hhalves ⟨h2, h3⟩
    rw [hcovers.low h2 h3] at hhalves
    omega
  · intro hne
    exact hcovers.halves hfew.1 hfew.2 (by tauto)

end

theorem groupOf_lt (hd : Fits T dense) (base : ℕ) :
    ∀ i < 4, groupOf T dense base i < 2 ^ T.codeBits :=
  fun i _ => read_lt hd (base + i)

variable [Conversions]

section
variable (h : Addressable T rows cols) (hd : Fits T dense) (hout : Fits T output)
include h hd hout

theorem roundTrip_of_groups [Conversions.ValuePreserving]
    (hok : ∀ b < rows * (columns T cols / 4), GroupOk T (groupOf T dense (4 * b))) :
    SparseRoundTrip T dense output rows cols := by
  obtain ⟨pruned, hprune, hfits, hblock⟩ := prune_spec h hd
  have hkeeps : ∀ b < rows * (columns T cols / 4),
      KeepsLargest T (groupOf T dense (4 * b)) (groupOf T pruned (4 * b)) :=
    fun b hb => (keepsLargest_of_signs (groupOf_lt hd _) (hok b hb).1).congr fun i hi =>
    (hblock b hb i hi).symm
  have hspec := compress_spec h hfits hout
  cases hcompress : compress2to4Matrix T output pruned rows cols with
  | none =>
    rw [hcompress] at hspec
    obtain ⟨b, hb, hnone⟩ := hspec
    exact absurd hnone (groupPositions_ne_none (hkeeps b hb).few.1)
  | some s =>
    obtain ⟨compressed, metadata⟩ := s
    rw [hcompress] at hspec
    have hflags : ∀ b < rows * (columns T cols / 4), TwoFlags T (metadata b) := by
      intro b hb
      obtain ⟨p, hp, hmask, -⟩ := hspec.block b hb
      have hcovers := groupPositions_covers hp
      obtain ⟨hbyte, htwo, -⟩ := maskOf_flags hcovers.lt hcovers.lt_four
      refine ⟨hmask ▸ hbyte, hmask ▸ htwo, fun hT => ?_⟩
      rw [hspec.half hb ((hkeeps b hb).few.2 hT), hblock b hb 2 (by omega),
        hblock b hb 3 (by omega), prunedAt_half_zero (groupOf_lt hd _) hT]
      have := (hok b hb).2 hT
      omega
    have hscatter := fun b hb i hi => hspec.scatter (b := b) hb (i := i) hi
    refine ⟨pruned, compressed, metadata, hprune, hcompress, hkeeps, hflags, hscatter,
      fun row hrow => ?_⟩
    have hlt : ∀ g < columns T cols / 4,
        row * (columns T cols / 4) + g < rows * (columns T cols / 4) := by
      intro g hg
      calc row * (columns T cols / 4) + g < (row + 1) * (columns T cols / 4) := by
            rw [succ_mul]
            omega
        _ ≤ rows * (columns T cols / 4) := mul_le_mul_right _ hrow
    exact gathersProduct (fun g hg => hflags _ (hlt g hg)) fun g hg => hscatter _ (hlt g hg)

theorem groups_of_roundTrip (hround : SparseRoundTrip T dense output rows cols) :
    ∀ b < rows * (columns T cols / 4), GroupOk T (groupOf T dense (4 * b)) := by
  intro b hb
  obtain ⟨pruned, compressed, metadata, hprune, hcompress, hproduct⟩ := hround
  obtain ⟨pruned', hprune', hfits, hblock⟩ := prune_spec h hd
  rw [hprune, some_inj] at hprune'
  subst hprune'
  refine ⟨signs_of_keepsLargest (groupOf_lt hd _) ((hproduct.keeps b hb).congr (hblock b hb)),
    fun hT => ?_⟩
  have hspec := compress_spec h hfits hout
  rw [hcompress] at hspec
  have hhalf := (hspec.half hb ((hproduct.keeps b hb).few.2 hT)).mp ((hproduct.flags b hb).2.2 hT)
  rw [hblock b hb 2 (by omega), hblock b hb 3 (by omega),
    prunedAt_half_zero (groupOf_lt hd _) hT] at hhalf
  omega

end

/-- The round trip goes through exactly if in each group the signs agree with the order of the codes
and 32-bit types have an element other than zero in the second half. -/
theorem sparse_round_trip_iff [Conversions.ValuePreserving] (h : Addressable T rows cols)
    (hd : Fits T dense) (hout : Fits T output) :
    SparseRoundTrip T dense output rows cols ↔
      ∀ b < rows * (columns T cols / 4), GroupOk T (groupOf T dense (4 * b)) :=
  ⟨groups_of_roundTrip h hd hout, roundTrip_of_groups h hd hout⟩

end Matrices

def ofList (l : List ℕ) : Cells := fun i => l.getD i 0

theorem fits_ofList {T : ElemType} {l : List ℕ}
    (hl : ∀ x ∈ l, x < 2 ^ if T.bits < 8 then 8 else T.codeBits) : Fits T (ofList l) := by
  intro i
  by_cases hi : i < l.length
  · rw [ofList, List.getD_eq_getElem _ _ hi]
    exact hl _ (List.getElem_mem hi)
  · rw [ofList, List.getD_eq_default _ _ (by omega)]
    exact Nat.two_pow_pos _

abbrev Conversions.ieee : Conversions := ⟨FloatFormat.ieeeValue 5 10, FloatFormat.ieeeValue 8 7⟩

theorem Conversions.ieee_valuePreserving : @ValuePreserving ieee :=
  @ValuePreserving.mk ieee (fun _ _ => rfl) fun _ _ => rfl

/-- Two groups of 8-bit floats of both signs, and one of 16-bit floats. -/
theorem sparse_round_trip_iff_floats :
    @SparseRoundTrip .ieee .fp8 (ofList [0x38, 0xb9, 0x00, 0x30, 0x20, 0xc8, 0x40, 0x41])
      (ofList []) 2 4 ∧
    @SparseRoundTrip .ieee .fp16 (ofList [0x3c00, 0xc000, 0x0001, 0x7bff]) (ofList []) 1 4 := by
  constructor
  all_goals
    exact (@sparse_round_trip_iff _ _ _ _ _ .ieee Conversions.ieee_valuePreserving
      ⟨by decide, by decide, by decide⟩ (fits_ofList (by decide)) (fits_ofList (by decide))).mpr
      (by decide +kernel)

/-- A small negative 8-bit float pushes out larger ones, and a group of zeros of a 32-bit type gets
both flags in its first half. -/
theorem sparse_round_trip_fails :
    ¬ @SparseRoundTrip .ieee .fp8 (ofList [0x81, 0x70, 0x70, 0x70]) (ofList []) 1 4 ∧
    ¬ @SparseRoundTrip .ieee .tf32 (ofList []) (ofList []) 1 4 := by
  constructor
  all_goals
    intro h
    have hok := @groups_of_roundTrip _ _ _ _ _ .ieee ⟨by decide, by decide, by decide⟩
      (fits_ofList (by decide)) (fits_ofList (by decide)) h 0 (by decide)
    exact absurd hok (by decide +kernel)

end VortexGpu.Tensor

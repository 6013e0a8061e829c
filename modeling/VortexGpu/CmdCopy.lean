import VortexGpu.CmdRing

/-!
# Copies whose ranges overlap

The copy engine goes through its range in blocks, each of which is read as a whole before it is
written. A byte that an earlier block has written is read again only if the destination starts
behind the source, inside of it, and the range has more than one block.
-/

namespace VortexGpu.Cp
open ByteMem Word Vm Nat List

def copiedBlocks (mem : Mem) (dst src total k : ℕ) : Mem :=
  ((range k).foldl (copyStep dst src total) (mem, [])).1

variable {mem : Mem} {dst src total k i : ℕ}

theorem copied_eq_blocks : (copied mem dst src total).1 =
    copiedBlocks mem dst src total ((total + copyChunk - 1) / copyChunk) := by
  rw [copied, copiedBlocks]

theorem blocks_cover (total : ℕ) : total ≤ (total + copyChunk - 1) / copyChunk * copyChunk ∧
    (total + copyChunk - 1) / copyChunk * copyChunk < total + copyChunk := by
  have hpos : 0 < copyChunk := by decide
  have hdiv := div_add_mod (total + copyChunk - 1) copyChunk
  have hrest := mod_lt (total + copyChunk - 1) hpos
  rw [mul_comm] at hdiv
  omega

section Copy
variable (hdst : dst + total ≤ 2 ^ 64) (hsrc : src + total ≤ 2 ^ 64)
include hdst hsrc

theorem copiedBlocks_succ (hk : k * copyChunk < total) :
    copiedBlocks mem dst src total (k + 1) =
      writeBytes (copiedBlocks mem dst src total k) (dst + k * copyChunk)
      (readBytes (copiedBlocks mem dst src total k) (src + k * copyChunk)
        (min (total - k * copyChunk) copyChunk)) := by
  rw [copiedBlocks, range_succ, foldl_append, foldl_cons, foldl_nil, copyStep]
  rw [add64_of_lt (by omega), add64_of_lt (by omega), copiedBlocks]

theorem copiedBlocks_outside {a : ℕ} (hk : k * copyChunk < total + copyChunk)
    (ha : a < dst ∨ dst + min total (k * copyChunk) ≤ a) :
    copiedBlocks mem dst src total k a = mem a := by
  induction k with
  | zero => rfl
  | succ k ih =>
    rw [succ_mul] at hk ha
    rw [copiedBlocks_succ hdst hsrc (by omega), writeBytes_of_not_mem, ih (by omega) (by omega)]
    rw [length_readBytes]
    omega

theorem copiedBlocks_inside (hk : k * copyChunk < total + copyChunk) (hi : i < k * copyChunk)
    (hi' : i < total) :
    copiedBlocks mem dst src total k (dst + i) =
      copiedBlocks mem dst src total (i / copyChunk) (src + i) := by
  induction k with
  | zero => omega
  | succ k ih =>
    rw [succ_mul] at hk hi
    rw [copiedBlocks_succ hdst hsrc (by omega)]
    by_cases hlast : k * copyChunk ≤ i
    · obtain ⟨j, rfl⟩ := Nat.exists_eq_add_of_le hlast
      have hdiv : (k * copyChunk + j) / copyChunk = k := by
        rw [add_comm, add_mul_div_right _ _ (by decide), div_eq_of_lt (by omega), zero_add]
      rw [hdiv, ← add_assoc, writeBytes_of_lt (by rw [length_readBytes]; omega), readBytes]
      rw [getD_eq_getElem _ _ (by simp; omega)]
      simp [add_assoc]
    · rw [writeBytes_of_not_mem (Or.inl (by omega)), ih (by omega) (by omega)]

theorem copied_byte (hi : i < total) :
    (copied mem dst src total).1 (dst + i) =
      copiedBlocks mem dst src total (i / copyChunk) (src + i) := by
  have hcover := blocks_cover total
  rw [copied_eq_blocks, copiedBlocks_inside hdst hsrc hcover.2 (by omega) hi]

theorem copied_frame {a : ℕ} (ha : a < dst ∨ dst + total ≤ a) :
    (copied mem dst src total).1 a = mem a := by
  have hcover := blocks_cover total
  rw [copied_eq_blocks, copiedBlocks_outside hdst hsrc hcover.2 (by omega)]

theorem copied_exact (h : total ≤ copyChunk ∨ dst ≤ src ∨ src + total ≤ dst)
    (hi : i < total) : (copied mem dst src total).1 (dst + i) = mem (src + i) := by
  have hle := div_mul_le_self i copyChunk
  rw [copied_byte hdst hsrc hi]
  refine copiedBlocks_outside hdst hsrc (by omega) ?_
  rcases h with h | h | h
  · rw [div_eq_of_lt (by omega), zero_mul]
    omega
  · omega
  · omega

/-- The first byte that is read after the first block has written it. -/
theorem copied_reread (h : src < dst) {j : ℕ} (hj : j = max copyChunk (dst - src))
    (hlt : j < total) (hin : j < copyChunk + (dst - src)) :
    (copied mem dst src total).1 (dst + j) = mem (src + (j - (dst - src))) := by
  have hpos : 0 < copyChunk := by decide
  have hge : 1 ≤ j / copyChunk := (one_le_div_iff hpos).mpr (by omega)
  have hblock := mul_le_mul_right copyChunk hge
  have hle := div_mul_le_self j copyChunk
  have hread : src + j = dst + (j - (dst - src)) := by omega
  rw [copied_byte hdst hsrc hlt, hread,
    copiedBlocks_inside hdst hsrc (by omega) (by omega) (by omega), div_eq_of_lt (by omega)]
  rfl

end Copy

theorem retired_dram (s : CommandProcessor) (mem : Mem) :
    { s with dram := mem }.toRetire.dram = mem := rfl

section
variable [VmBuild]

theorem dispatch_memCopy (rsp : ℕ → ℕ → ℕ) {s : CommandProcessor} {c : Cmd}
    (hop : c.op = .memCopy) (hdst : memDst s.satp s.dram c = some dst)
    (hsrc : memSrc s.satp s.dram c = some src) :
    ∃ t, s.dispatch rsp c = some t ∧ t.dram = (copied s.dram dst src c.arg2).1 := by
  have hmap : s.dispatch rsp c = (s.execMem c).map CommandProcessor.toRetire := by
    rw [CommandProcessor.dispatch, hop]
  by_cases hzero : c.arg2 = 0
  · rw [hmap, CommandProcessor.execMem, if_pos hzero, hzero, copied_eq_blocks,
      div_eq_of_lt (by decide)]
    exact ⟨_, rfl, rfl⟩
  have hexec : s.execMem c = some { s.log (.view s.dram :: (copied s.dram dst src c.arg2).2) with
      dram := (copied s.dram dst src c.arg2).1 } := by
    rw [CommandProcessor.execMem, hdst, hsrc, if_neg hzero]
    rfl
  rw [hmap, hexec, Option.map_some]
  exact ⟨_, rfl, retired_dram _ _⟩

/-- A processor that has not been given a page table copies between the addresses of the command. -/
theorem programmed_memCopy (rsp : ℕ → ℕ → ℕ) (mem : Mem) (dst src total : ℕ) :
    let s := programmed 0 0 0 0 0 0 0 mem
    let c : Cmd := ⟨3, 0, 0, dst, src, total⟩
    memDst s.satp s.dram c = some dst ∧ memSrc s.satp s.dram c = some src ∧
      ∃ t, s.dispatch rsp c = some t ∧ t.dram = (copied mem dst src total).1 := by
  intro s c
  have htrans : ∀ va physical, translate 0 mem va physical = some va := by
    intro va physical
    unfold translate
    split
    · rfl
    · simp [cpTranslate]
  have hd : memDst s.satp s.dram c = some dst :=
    (if_neg (by simp [c, Cmd.op, Op.ofByte])).trans (htrans dst _)
  have hs : memSrc s.satp s.dram c = some src :=
    (if_neg (by simp [c, Cmd.op, Op.ofByte])).trans (htrans src _)
  exact ⟨hd, hs, dispatch_memCopy rsp rfl hd hs⟩

/-- A copy command moves every byte of its range, whatever the memory holds, unless the destination
starts inside the source and behind its start, and the range is longer than a block. -/
theorem memCopy_exact_iff (rsp : ℕ → ℕ → ℕ) (hdst : dst + total ≤ 2 ^ 64)
    (hsrc : src + total ≤ 2 ^ 64) :
    (∀ (s : CommandProcessor) (c : Cmd), c.op = .memCopy → c.arg2 = total →
        memDst s.satp s.dram c = some dst → memSrc s.satp s.dram c = some src →
      ∃ t, s.dispatch rsp c = some t ∧ ∀ i < total, t.dram (dst + i) = s.dram (src + i)) ↔
    total ≤ copyChunk ∨ dst ≤ src ∨ src + total ≤ dst := by
  constructor
  · intro h
    by_contra hno
    -- one byte that differs from all others, where the second block reads what the first has
    -- written
    obtain ⟨j, hj⟩ : ∃ j, j = max copyChunk (dst - src) := ⟨_, rfl⟩
    let mem : Mem := fun a => if a = src + j then 1 else 0
    obtain ⟨hd, hs, t, ht, hdram⟩ := programmed_memCopy rsp mem dst src total
    obtain ⟨t', ht', hbytes⟩ := h _ _ rfl rfl hd hs
    cases ht.symm.trans ht'
    have hpos : 0 < copyChunk := by decide
    have hread : t.dram (dst + j) = mem (src + (j - (dst - src))) := by
      rw [hdram, copied_reread hdst hsrc (by omega) hj (by omega) (by omega)]
    have hbyte : mem (src + (j - (dst - src))) = mem (src + j) :=
      hread.symm.trans (hbytes j (by omega))
    simp only [mem, if_true] at hbyte
    rw [if_neg (by omega)] at hbyte
    exact absurd hbyte (by decide)
  · intro h s c hop hlen hd hs
    obtain ⟨t, ht, hdram⟩ := dispatch_memCopy rsp hop hd hs
    refine ⟨t, ht, fun i hi => ?_⟩
    rw [hdram, hlen, copied_exact hdst hsrc h hi]

end

theorem memCopy_exact_small_overlap :
    letI := noVm
    ∃ t, (programmed 0 0 0 0 0 0 0 UInt8.ofNat).dispatch (fun _ _ => 0)
        ⟨3, 0, 0, 0x1001, 0x1000, 8⟩ = some t ∧
      ∀ i < 8, t.dram (0x1001 + i) = UInt8.ofNat (0x1000 + i) :=
  (@memCopy_exact_iff _ _ _ noVm (fun _ _ => 0) (by decide) (by decide)).mpr (Or.inl (by decide)) _
    _ rfl rfl rfl rfl

/-- Two blocks, one byte apart: the last byte of the source, a one, has been overwritten when it is
read. -/
theorem memCopy_overlap_rereads :
    letI := noVm
    ∃ t, (programmed 0 0 0 0 0 0 0 fun a => if a = 0x11000 then 1 else 0).dispatch (fun _ _ => 0)
        ⟨3, 0, 0, 0x1001, 0x1000, 0x10001⟩ = some t ∧ t.dram (0x1001 + 0x10000) = 0 := by
  obtain ⟨-, -, t, ht, hdram⟩ :=
    @programmed_memCopy noVm (fun _ _ => 0) (fun a => if a = 0x11000 then 1 else 0)
    0x1001 0x1000 0x10001
  refine ⟨t, ht, ?_⟩
  rw [hdram, copied_reread (by decide) (by decide) (by decide) (by decide) (by decide) (by decide)]
  decide

end VortexGpu.Cp

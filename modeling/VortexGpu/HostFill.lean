import VortexGpu.HostBounds

/-!
# Fills

A fill stages whole patterns, at most 64 KiB of them, and writes the staged bytes again and again.
The phase of the pattern is kept since every chunk but the last is a multiple of it. Of a pattern
that is larger than that nothing is staged, and the loop does not get on.
-/

namespace VortexGpu.Api
open Word ByteMem Cp Simx Api.Action Work Nat List

/-- Writes to the device succeed and change the bytes of their range in `view`, the memory of the
device. -/
structure Device.WritesExactly (dev : Device) (view : Host → Mem) : Prop where
  write : ∀ addr src n h, addr + n ≤ 2 ^ 64 → n < 2 ^ 64 →
    (dev.devWrite addr (some src) n h).1 = .success ∧
    view (dev.devWrite addr (some src) n h).2 = writeBytes (view h) addr (readBytes src 0 n)
  release : ∀ h o, view (Host.release h o) = view h

namespace Transfer

section Loop
variable {dev : Device} {view : Host → Mem} {base chunk size p : ℕ} {staging : Mem}

theorem fillLoop_fills (hdev : dev.WritesExactly view) (hbase : base + size ≤ 2 ^ 64)
    (hroom : size + chunk ≤ 2 ^ 64)
    (hchunk : 0 < chunk) (hwhole : p ∣ chunk)
    (hphase : ∀ k i, p ∣ k → staging (k + i) = staging i)
    (n : ℕ) : ∀ {done : ℕ} (h : Host), p ∣ done → size ≤ done + n * chunk →
    ∀ fuel > n,
      (fillLoop dev base chunk size staging fuel done h).1 = some .success ∧
      (∀ i, done ≤ i → i < size →
        view (fillLoop dev base chunk size staging fuel done h).2 (base + i) = staging i) ∧
      ∀ a, a < base + done ∨ base + size ≤ a →
        view (fillLoop dev base chunk size staging fuel done h).2 a = view h a := by
  induction n with
  | zero =>
    intro done h _ hle fuel hfuel
    obtain ⟨fuel, rfl⟩ := Nat.exists_eq_add_of_lt hfuel
    rw [zero_add, fillLoop, if_pos (by omega)]
    exact ⟨rfl, fun i hi hlt => absurd hlt (by omega), fun a _ => rfl⟩
  | succ n ih =>
    intro done h hdone hle fuel hfuel
    obtain ⟨fuel, rfl⟩ : ∃ k, fuel = k + 1 := ⟨fuel - 1, by omega⟩
    rw [succ_mul] at hle
    rw [fillLoop]
    by_cases hend : size ≤ done
    · rw [if_pos hend]
      exact ⟨rfl, fun i hi hlt => absurd hlt (by omega), fun a _ => rfl⟩
    obtain ⟨hok, hview⟩ :=
      hdev.write (base + done) staging (min chunk (size - done)) h (by omega) (by omega)
    rw [if_neg hend, add64_of_lt (by omega : base + done < 2 ^ 64)]
    dsimp only
    rw [if_neg (by simp [hok]), add64_of_lt (by omega : done + chunk < 2 ^ 64)]
    obtain ⟨hres, hbytes, hframe⟩ :=
      ih (dev.devWrite (base + done) (some staging) (min chunk (size - done)) h).2
      (Nat.dvd_add hdone hwhole) (by omega) fuel (by omega)
    refine ⟨hres, fun i hi hlt => ?_, fun a ha => ?_⟩
    · by_cases hnext : done + chunk ≤ i
      · exact hbytes i hnext hlt
      -- a byte of this chunk, which the later ones leave alone
      · obtain ⟨j, rfl⟩ := Nat.exists_eq_add_of_le hi
        rw [hframe _ (by omega), hview, ← add_assoc,
          writeBytes_of_lt (by rw [length_readBytes]; omega), hphase done j hdone]
        simp [readBytes, show j < min chunk (size - done) by omega]
    · rw [hframe a (by omega), hview, writeBytes_of_not_mem]
      rw [length_readBytes]
      omega

theorem fillLoop_stuck (hsize : 0 < size) (fuel : ℕ) (h : Host) :
    (fillLoop dev base 0 size staging fuel 0 h).1 = none := by
  induction fuel with
  | zero => rfl
  | succ fuel ih =>
    have hnone : dev.devWrite (add64 base 0) (some staging) (min 0 (size - 0)) h =
        (.success, h) := by
      simp [Device.devWrite, Device.cpSubmitMemWrite, ok]
    rw [fillLoop, if_neg (by omega), hnone]
    exact ih

end Loop

/-- The range of the buffer holds the pattern over and over, and every other byte is as it was. -/
def Filled (dst : Buffer) (offset size : ℕ) (pattern : Mem) (patternSize : ℕ)
    (mem mem' : Mem) : Prop :=
  (∀ i < size, offset + i < dst.size ∧
    mem' (dst.devAddr + offset + i) = pattern (i % patternSize)) ∧
  ∀ a, (∀ i < size, a ≠ dst.devAddr + offset + i) → mem' a = mem a

/-- The closure of a call that is accepted ends, and has then filled its range. -/
def FillsExactly (dst : Buffer) (offset size : Fin (2 ^ 64)) (pattern : Mem)
    (patternSize : Fin (2 ^ 64)) : Prop :=
  ∀ (dev : Device) (view : Host → Mem), dev.WritesExactly view →
  ∀ (wa : WaitArgs) (out : Bool) (h : Host) (cmd : Command),
    ((fill dst offset size pattern patternSize).call.enqueue dev wa out h).result = .success →
    ((fill dst offset size pattern patternSize).call.enqueue dev wa out h).command = some cmd →
    ∀ h₂ : Host, ∃ rounds, ∀ fuel ≥ rounds,
    (cmd.work.run dev fuel h₂).1 = some .success ∧
      Filled dst offset size pattern patternSize (view h₂) (view (cmd.work.run dev fuel h₂).2)

section Closure
variable {dst : Buffer} {offset size patternSize : ℕ} {pattern : Mem}

theorem fill_run {dev : Device} {fuel base : ℕ} {h h' : Host} {r : VxResult}
    (hbase : add64 dst.devAddr offset = base)
    (hloop : fillLoop dev base (fillChunk size patternSize) size
      (fun i => (readBytes pattern 0 patternSize).getD (i % patternSize) 0) fuel 0 h =
        (some r, h')) :
    (Work.fill dst offset size (readBytes pattern 0 patternSize)).run dev fuel h =
      (some r, h'.release dst.obj) := by
  rw [Work.run, length_readBytes, hbase]
  simp only [hloop, reduceCtorEq, if_false]

theorem fill_stuck (hlarge : kChunkCap < patternSize) (hsize : 0 < size) (dev : Device) (fuel : ℕ)
    (h : Host) :
    ((Work.fill dst offset size (readBytes pattern 0 patternSize)).run dev fuel h).1 = none := by
  rw [Work.run, length_readBytes, fillChunk_of_lt hlarge]
  exact fillLoop_stuck hsize fuel h

theorem dvd_fillChunk (hsize : patternSize ∣ size) :
    patternSize ∣ fillChunk size patternSize := by
  rw [fillChunk]
  rcases min_choice (kChunkCap - kChunkCap % patternSize) size with h | h
  · rw [h]
    exact dvd_sub_mod _
  · rwa [h]

theorem fill_fills {dev : Device} {view : Host → Mem} (hdev : dev.WritesExactly view)
    (hroom : dst.size + kChunkCap ≤ 2 ^ 64) (hpos : 0 < patternSize)
    (hcap : size = 0 ∨ patternSize ≤ kChunkCap)
    (hwhole : patternSize ∣ size) (hin : offset + size ≤ dst.size) (h : Host) :
    ∃ rounds, ∀ fuel ≥ rounds,
      ((Work.fill dst offset size (readBytes pattern 0 patternSize)).run dev fuel h).1 =
        some .success ∧ Filled dst offset size pattern patternSize (view h)
        (view ((Work.fill dst offset size (readBytes pattern 0 patternSize)).run dev fuel
          h).2) := by
  have hlimit := dst.inside
  let staging : Mem := fun i => (readBytes pattern 0 patternSize).getD (i % patternSize) 0
  have hstaged : ∀ i, staging i = pattern (i % patternSize) := by
    intro i
    simp [staging, readBytes, mod_lt i hpos]
  rcases Nat.eq_zero_or_pos size with rfl | hsize
  · refine ⟨1, fun fuel hfuel => ?_⟩
    obtain ⟨fuel, rfl⟩ := Nat.exists_eq_add_of_le' hfuel
    rw [fill_run rfl (by rw [fillLoop, if_pos (zero_le 0)]), hdev.release]
    exact ⟨rfl, fun i hi => absurd hi (by omega), fun a _ => rfl⟩
  · have hchunk := fillChunk_pos (hcap.resolve_left hsize.ne') hpos hsize
    have hle : fillChunk size patternSize ≤ kChunkCap := by
      rw [fillChunk]
      omega
    have hend : dst.devAddr + offset + size ≤ 2 ^ 64 := by omega
    have hphase : ∀ k i, patternSize ∣ k → staging (k + i) = staging i := by
      intro k i hk
      rw [hstaged, hstaged, add_mod, mod_eq_zero_of_dvd hk, zero_add, mod_mod]
    have hrounds : size ≤ 0 + size * fillChunk size patternSize := by
      rw [zero_add]
      exact Nat.le_mul_of_pos_right size hchunk
    refine ⟨size + 1, fun fuel hfuel => ?_⟩
    obtain ⟨hres, hbytes, hframe⟩ :=
      fillLoop_fills hdev hend (by omega) hchunk (dvd_fillChunk hwhole) hphase size h
      (Nat.dvd_zero _) hrounds fuel hfuel
    rw [fill_run (add64_of_lt (by omega)) (Prod.ext hres rfl), hdev.release]
    refine ⟨rfl, fun i hi => ⟨by omega, ?_⟩, fun a ha => ?_⟩
    · rw [hbytes i (zero_le i) hi, hstaged]
    · refine hframe a ?_
      by_contra hmem
      exact ha (a - (dst.devAddr + offset)) (by omega) (by omega)

end Closure

/-- A device that carries out the lines it is given: a write takes the bytes that were staged last.
-/
def play (s : List UInt8 × Mem) : Effect → List UInt8 × Mem
  | .hostMemStore _ bytes => (bytes, s.2)
  | .submitCl cl => (s.1, (lineCmds cl).foldl (fun mem c => writeBytes mem c.arg0 s.1) s.2)
  | _ => s

def played (h : Host) : Mem := (h.effects.foldl play ([], fun _ => 0)).2

theorem ready_writesExactly : readyDevice.WritesExactly played where
  write addr src n h hend hn := by
    rcases Nat.eq_zero_or_pos n with rfl | hpos
    · refine ⟨rfl, funext fun a => ?_⟩
      rw [writeBytes_of_not_mem (by rw [length_readBytes]; omega)]
      rfl
    · obtain ⟨hres, heffects⟩ := ready_memWrite addr src hpos.ne' h
      refine ⟨hres, ?_⟩
      rw [played, Device.devWrite, heffects, foldl_append]
      simp only [foldl_cons, foldl_nil, play, Device.opMemWrite]
      rw [lineCmds_transfer (by decide), foldl_cons, foldl_nil, mod_eq_of_lt (by omega), played]
  release _ _ := rfl

/-- A fill is exact if it is empty, or its pattern fits a chunk and its range does not wrap around.
The buffer leaves room for one chunk below `2 ^ 64`, so that the cursor of the loop does not wrap.
-/
theorem fills_exactly_iff {dst : Buffer} (hroom : dst.size + kChunkCap ≤ 2 ^ 64)
    (offset size : Fin (2 ^ 64)) (pattern : Mem) (patternSize : Fin (2 ^ 64)) :
    FillsExactly dst offset size pattern patternSize ↔
      ((fill dst offset size pattern patternSize).Accepts →
        size.val = 0 ∨ patternSize.val ≤ kChunkCap ∧ offset.val + size.val < 2 ^ 64) := by
  constructor
  · intro h ha
    obtain ⟨cmd, hres, hcmd, hwork⟩ :=
      enqueue_of_accepts ha ⟨0, none, by decide⟩ rfl readyDevice false sampleHost
    obtain ⟨rounds, hrounds⟩ := h _ _ ready_writesExactly _ _ _ cmd hres hcmd sampleHost
    obtain ⟨hend, hbytes, _⟩ := hrounds rounds le_rfl
    by_cases hsize : size.val = 0
    · exact Or.inl hsize
    refine Or.inr ⟨?_, ?_⟩
    · by_contra hlarge
      rw [hwork, work, fill_stuck (by omega) (by omega)] at hend
      exact absurd hend (by simp)
    · have hlast := (hbytes (size.val - 1) (by omega)).1
      have hlt := dst.size_lt
      omega
  · intro h dev view hdev wa out h₁ cmd _ hcmd h₂
    obtain ⟨ha, hwork⟩ := (call_work _ dev h₁).mp (command_work hcmd)
    have ho := offset.isLt
    have hcond := h ha
    obtain ⟨hpos, hwhole, hin⟩ := ha
    rw [add64_of_lt (by omega), not_lt] at hin
    rw [← hwork]
    exact fill_fills hdev hroom (pos_of_ne_zero hpos) (by omega)
      (dvd_of_mod_eq_zero (not_not.mp hwhole)) hin h₂

def upperBuffer : Buffer := ⟨0, 0x10000, 0x20000, by decide, by decide⟩

theorem fills_exactly_two_bytes : FillsExactly upperBuffer 4 8 (fun i => UInt8.ofNat i) 2 :=
  (fills_exactly_iff (by decide) _ _ _ _).mpr fun _ => Or.inr ⟨by decide, by decide⟩

/-- A pattern of one byte more than a chunk, for a fill of its size: the closure goes on for ever.
-/
theorem fill_never_ends : (fill upperBuffer 0 0x10001 (fun _ => 0) 0x10001).Accepts ∧
    ∀ dev fuel h,
      ((fill upperBuffer 0 0x10001 (fun _ => 0) 0x10001).work.run dev fuel h).1 = none :=
  ⟨⟨by decide, by decide, by decide⟩, fill_stuck (by decide) (by decide)⟩

end Transfer

end VortexGpu.Api

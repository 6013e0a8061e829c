import VortexGpu.CmdHistory

/-!
# Runs of the command processor

The processor is programmed once and then ticked. Between two ticks the host
commits a new tail, one word after the other, and the host and the device write
to memory. `RetiredInOrder` is what holds in every state of such a run.
-/

namespace VortexGpu.Cp
open ByteMem Word Vm Runs List

inductive Action where
  | tick (busy : Bool) (rsp : ℕ → ℕ → ℕ)
  | tailLo (value : ℕ)
  | tailHi (value : ℕ)
  | store (mem : Mem)

section
variable [VmBuild]

def step (s : CommandProcessor) : Action → Option (CommandProcessor × Unit)
  | .tick busy rsp => (s.tick busy rsp).map (fun t => (t, ()))
  | .tailLo value => some (s.mmioWrite 0x120 value, ())
  | .tailHi value => some (s.mmioWrite 0x124 value, ())
  | .store mem => some ({ s with dram := mem }, ())

/-- The commands retired so far, with the calls made for each of them, and the calls made
so far for the current one. -/
structure RetiredInOrder (t : CommandProcessor) (blocks : List Block)
    (cur : List HookCall) : Prop where
  addresses : (fetched t.calls).map Prod.fst =
    (range (linesOf t.calls).length).map (fun k => t.q0.ringAddr (64 * k % 2 ^ 64))
  commands : blocks.map Block.cmd <+: (linesOf t.calls).flatMap lineCmds
  seqnum : t.q0.seqnum = blocks.length % 2 ^ 64
  head : ∃ used : List Mem, t.q0.head = 64 * used.length % 2 ^ 64 ∧
    linesOf t.calls = used ++ (if t.clLoaded then [t.clBuf] else []) ∧
    used.flatMap lineCmds <+: blocks.map Block.cmd
  effects : t.calls.filter isEffect = issued t.q0.cmplAddr blocks ++ cur
  performed : ∀ b ∈ blocks, Performs t.satp b.cmd b.calls
  launches : ∀ b ∈ blocks, b.cmd.isLaunch = true →
    ∃ pre d, b.calls = pre ++ d ∧ HookCall.start ∉ pre ∧ Drains d
  completes : ∀ busy rsp t', t.engState = .retire → t.enabled = true →
    t.tick busy rsp = some t' → t'.q0.seqnum = (blocks.length + 1) % 2 ^ 64 ∧
      (t'.q0.cmplAddr ≠ 0 → readLE t'.dram t'.q0.cmplAddr 8 = t'.q0.seqnum)

section Reached
variable {s t : CommandProcessor} {blocks : List Block} {cur : List HookCall}

theorem Sets.start_not_mem {satp : ℕ} {mem : Mem} {c : Cmd} {pre : List HookCall}
    (h : Sets satp mem c pre) : HookCall.start ∉ pre := by
  cases h with
  | launch _ => simp
  | qmd addr _ _ => simp [qmdSets]

theorem Performs.launched {satp : ℕ} {c : Cmd} {cs : List HookCall} (h : Performs satp c cs)
    (hc : c.isLaunch = true) : ∃ pre d, cs = pre ++ d ∧ HookCall.start ∉ pre ∧
    Drains d := by
  have hop := isLaunch_iff.mp hc
  cases h with
  | launch mem _ pre d hpre hd => exact ⟨pre, d, rfl, hpre.start_not_mem, hd⟩
  | draw mem _ phys d h | eventSig _ h | eventWait _ ms mem h => simp [h] at hop
  | copyNone _ h | copy mem _ dst src cs h => rcases hop with h' | h' <;> simp [isMem, h'] at h
  | plain _ h => rcases hop with h' | h' <;> simp [h'] at h

theorem tickEngine_completes {rsp : ℕ → ℕ → ℕ} (hs : s.engState = .retire)
    (ht : s.tickEngine rsp = some t) : t.q0.seqnum = add64 s.q0.seqnum 1 ∧
      (t.q0.cmplAddr ≠ 0 → readLE t.dram t.q0.cmplAddr 8 = t.q0.seqnum) := by
  simp only [CommandProcessor.tickEngine, hs, publishCompletion_eq, Option.some.injEq] at ht
  rw [← ht]
  refine ⟨rfl, ?_⟩
  intro hne
  have hslot : readLE (writeBytes s.dram s.q0.cmplAddr (bytesLE 8 (add64 s.q0.seqnum 1)))
      s.q0.cmplAddr 8 = add64 s.q0.seqnum 1 := by
    rw [readLE_writeBytes]
    exact Nat.mod_eq_of_lt (add64_lt _ _)
  simp only [CommandProcessor.log] at hne ⊢
  rw [if_neg hne]
  exact hslot

theorem tick_completes {busy : Bool} {rsp : ℕ → ℕ → ℕ} (hs : s.engState = .retire)
    (he : s.enabled = true) (ht : s.tick busy rsp = some t) : t.q0.seqnum = add64 s.q0.seqnum 1 ∧
      (t.q0.cmplAddr ≠ 0 → readLE t.dram t.q0.cmplAddr 8 = t.q0.seqnum) := by
  simp only [CommandProcessor.tick] at ht
  split at ht
  · obtain ⟨u, hu, rfl⟩ := Option.map_eq_some_iff.mp ht
    obtain ⟨hframe, _, _, hdram, _⟩ := tickLaunch_frame busy u
    have hdone := tickEngine_completes (by exact hs) hu
    rw [hframe.q0, hdram]
    exact hdone
  · rename_i hne
    exact absurd he hne

theorem History.retiredInOrder (h : History t blocks cur) : RetiredInOrder t blocks cur := by
  have hcount : (linesOf t.calls).length = (fetched t.calls).length := by simp [linesOf]
  have hhead : blocks.map Block.cmd <+: (linesOf t.calls).flatMap lineCmds ∧
      ∃ used : List Mem, t.q0.head = 64 * used.length % 2 ^ 64 ∧
        linesOf t.calls = used ++ (if t.clLoaded then [t.clBuf] else []) ∧
        used.flatMap lineCmds <+: blocks.map Block.cmd := by
    have hc := h.consumed
    generalize linesOf t.calls = ls at hc ⊢
    generalize blocks.map Block.cmd = cs at hc ⊢
    cases hc with
    | between _ hl _ hhead =>
      exact ⟨prefix_refl _, ls, hhead, by simp [hl], prefix_refl _⟩
    | inside ls hl hhead hn hle _ =>
      refine ⟨?_, ls, hhead, by simp [hl], prefix_append _ _⟩
      rw [flatMap_append, flatMap_singleton]
      exact (prefix_append_right_inj _).mpr (List.take_prefix _ _)
  refine ⟨?_, hhead.1, h.seqnum, hhead.2, h.effects, h.performed, ?_, ?_⟩
  · rw [hcount]
    exact h.addrs
  · intro b hb hc
    exact (h.performed b hb).launched hc
  · intro busy rsp t' hs he ht
    obtain ⟨hseq, hslot⟩ := tick_completes hs he ht
    refine ⟨?_, hslot⟩
    rw [hseq, h.seqnum]
    simp only [add64]
    omega

end Reached

/-- Every state that ticks and tail commits reach has retired the commands of the ring lines
in order. -/
theorem ticks_retire_in_order {ctrl satp ringBase headAddr cmplAddr ringLog2 control : ℕ}
    {mem : Mem} {as : List Action} {r : CommandProcessor × List Unit}
    (hrun : run step (programmed ctrl satp ringBase headAddr cmplAddr ringLog2 control mem) as =
      some r) : ∃ blocks cur, RetiredInOrder r.1 blocks cur := by
  have hreached := run_reaches (C := fun _ _ => True)
    (I := fun s => ∃ blocks cur, History s blocks cur) (t := r.1)
    (fun s a s' b hs _ hstep => by
      obtain ⟨blocks, cur, h⟩ := hs
      cases a with
      | tick busy rsp =>
        obtain ⟨t, ht, heq⟩ := Option.map_eq_some_iff.mp hstep
        cases heq
        exact h.tick ht
      | tailLo value =>
        cases hstep
        exact ⟨blocks, cur, h.outside s.cycleCounter s.q0.tail value s.dram⟩
      | tailHi value =>
        cases hstep
        exact ⟨blocks, cur, h.outside s.cycleCounter (value * 2 ^ 32 + s.q0.tailLoStaging)
          s.q0.tailLoStaging s.dram⟩
      | store mem =>
        cases hstep
        exact ⟨blocks, cur, h.outside s.cycleCounter s.q0.tail s.q0.tailLoStaging mem⟩)
    ⟨[], [], History.programmed⟩ (Along.of_forall fun _ _ => trivial) hrun
  obtain ⟨blocks, cur, h⟩ := hreached
  exact ⟨blocks, cur, h.retiredInOrder⟩

end

def launchThenWrite : Mem
  | 0 => 6
  | 12 => 4
  | 16 => 9
  | 24 => 5
  | _ => 0

def launchThenWriteTicks : List Action :=
  .tailLo 64 :: .tailHi 0 ::
    [false, false, false, false, true, true, false, false, false, false, false, false, false,
      false].map (fun busy => .tick busy (fun _ _ => 0))

theorem ticks_retire_launchThenWrite :
    letI := noVm
    (run step (programmed 1 0 0 0 4096 16 1 launchThenWrite) launchThenWriteTicks).map
        (fun r => (r.1.q0.seqnum, r.1.q0.head, readLE r.1.dram 4096 8)) = some (2, 64, 2) ∧
      ∀ r, run step (programmed 1 0 0 0 4096 16 1 launchThenWrite) launchThenWriteTicks =
        some r → ∃ blocks cur, RetiredInOrder r.1 blocks cur :=
  ⟨by decide +kernel, fun _ hrun => @ticks_retire_in_order noVm _ _ _ _ _ _ _ _ _ _ hrun⟩

end VortexGpu.Cp

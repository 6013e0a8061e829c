import VortexGpu.CmdEngine
import VortexGpu.Runs

/-!
# The history of a command processor

In every state a processor reaches, its log is that of the commands it has retired, one after the
other, and of the part of the current command that is done. The retired commands are the first ones
of the ring lines it fetched, the sequence number counts them, and the head counts the lines that
are used up.
-/

namespace VortexGpu.Cp
open ByteMem Word Vm Runs CommandProcessor List

structure Block where
  cmd : Cmd
  calls : List HookCall

def fetched (calls : List HookCall) : List (ℕ × Mem) :=
  calls.filterMap fun
    | .fetch addr mem => some (addr, mem)
    | _ => none

def linesOf (calls : List HookCall) : List Mem :=
  (fetched calls).map (fun f => window f.2 f.1 clBytes)

def completion (cmplAddr seqnum : ℕ) : List HookCall :=
  if cmplAddr = 0 then [] else [.store cmplAddr (bytesLE 8 seqnum)]

def issued (cmplAddr : ℕ) (blocks : List Block) : List HookCall :=
  blocks.zipIdx.flatMap (fun b => b.1.calls ++ completion cmplAddr ((b.2 + 1) % 2 ^ 64))

structure Current (s : CommandProcessor) : Prop where
  slot : s.clCmdSlot < s.clCmdCount
  cmd : s.curCmd = slotCmd s.clBuf s.clCmdSlot
  isLaunch : s.curIsLaunch = s.curCmd.isLaunch
  noResource : s.curIsNoResource = (s.curCmd.op == .nop || s.curCmd.op == .fence)

/-- The lines fetched and the commands retired, between two lines or inside one. -/
inductive Consumed (s : CommandProcessor) : List Mem → List Cmd → Prop where
  | between (ls : List Mem) : s.clLoaded = false → s.engState = .idle →
      s.q0.head = 64 * ls.length % 2 ^ 64 → Consumed s ls (ls.flatMap lineCmds)
  | inside (ls : List Mem) : s.clLoaded = true → s.q0.head = 64 * ls.length % 2 ^ 64 →
      s.clCmdCount = unpackCl s.clBuf → s.clCmdSlot ≤ s.clCmdCount →
      (s.engState ≠ .idle → Current s) →
      Consumed s (ls ++ [s.clBuf]) (ls.flatMap lineCmds ++ (lineCmds s.clBuf).take s.clCmdSlot)

def CommandProcessor.outside (s : CommandProcessor) (cycle tail lo : ℕ) (mem : Mem) :
    CommandProcessor :=
  { s with cycleCounter := cycle, dram := mem,
           q0 := { s.q0 with tail := tail, tailLoStaging := lo } }

section Logs
variable {calls new : List HookCall}

theorem fetched_append (calls new : List HookCall) :
    fetched (calls ++ new) = fetched calls ++ fetched new := filterMap_append

theorem fetched_of_effects (h : ∀ c ∈ new, isEffect c = true) : fetched new = [] := by
  apply filterMap_eq_nil_iff.mpr
  intro c hc
  have he := h c hc
  cases c <;> simp_all [isEffect]

theorem issued_append (cmplAddr : ℕ) (blocks : List Block) (b : Block) :
    issued cmplAddr (blocks ++ [b]) = issued cmplAddr blocks ++
      (b.calls ++ completion cmplAddr ((blocks.length + 1) % 2 ^ 64)) := by
  simp [issued, zipIdx_append]

theorem isEffect_completion (cmplAddr seqnum : ℕ) : ∀ c ∈ completion cmplAddr seqnum,
    isEffect c = true := by
  intro c hc
  unfold completion at hc
  split at hc
  · simp at hc
  · rw [mem_singleton.mp hc]
    rfl

end Logs

theorem publishCompletion_eq (s : CommandProcessor) :
    s.publishCompletion = { s.log (completion s.q0.cmplAddr s.q0.seqnum) with
      dram := if s.q0.cmplAddr = 0 then s.dram
        else writeBytes s.dram s.q0.cmplAddr (bytesLE 8 s.q0.seqnum) } := by
  unfold publishCompletion completion
  split
  · simp [log]
  · rfl

variable [VmBuild]

structure History (s : CommandProcessor) (blocks : List Block)
    (cur : List HookCall) : Prop where
  addrs : (fetched s.calls).map Prod.fst =
    (range (fetched s.calls).length).map (fun k => s.q0.ringAddr (64 * k % 2 ^ 64))
  consumed : Consumed s (linesOf s.calls) (blocks.map Block.cmd)
  seqnum : s.q0.seqnum = blocks.length % 2 ^ 64
  effects : s.calls.filter isEffect = issued s.q0.cmplAddr blocks ++ cur
  performed : ∀ b ∈ blocks, Performs s.satp b.cmd b.calls
  progress : Progress s.satp s s.engState cur

theorem progress_idle {satp : ℕ} {s : CommandProcessor}
    (hl : s.launchState = .idle) (hs : s.engState = .idle) : Progress satp s s.engState [] := by
  rw [hs]
  exact Progress.idle hl

namespace History
variable {s t : CommandProcessor} {blocks : List Block}
  {cur new : List HookCall} {rsp : ℕ → ℕ → ℕ}

theorem programmed {ctrl satp ringBase headAddr cmplAddr ringLog2 control : ℕ} {mem : Mem} :
    History (Cp.programmed ctrl satp ringBase headAddr cmplAddr ringLog2 control mem) [] [] :=
  ⟨rfl, Consumed.between [] rfl rfl rfl, rfl, rfl, by simp, Progress.idle rfl⟩

section
variable (h : History s blocks cur)
include h

theorem current (hs : s.engState ≠ .idle) : s.clLoaded = true ∧ Current s := by
  have hc := h.consumed
  generalize linesOf s.calls = ls at hc
  generalize blocks.map Block.cmd = cs at hc
  cases hc with
  | between _ _ hidle _ => exact absurd hidle hs
  | inside ls hl _ _ _ hcur => exact ⟨hl, hcur hs⟩

theorem makes (hs : s.engState ≠ .idle) (hm : Makes s t cur new) :
    History t blocks (cur ++ new) := by
  have hfetch : fetched t.calls = fetched s.calls := by
    rw [hm.calls, fetched_append, fetched_of_effects hm.effects, append_nil]
  have hlines : linesOf t.calls = linesOf s.calls := by rw [linesOf, hfetch, linesOf]
  obtain ⟨hq0, hsatp, hbuf, hcount, hslot, hloaded, hcmd, hlaunch, hres⟩ := hm.frame
  refine ⟨?_, ?_, ?_, ?_, ?_, hm.progress⟩
  · rw [hfetch, hq0]
    exact h.addrs
  · have hc := h.consumed
    rw [hlines]
    generalize linesOf s.calls = ls at hc ⊢
    generalize blocks.map Block.cmd = cs at hc ⊢
    cases hc with
    | between _ _ hidle _ => exact absurd hidle hs
    | inside ls hl hhead hn hle hcur =>
      have hcur' := hcur hs
      rw [← hbuf, ← hslot]
      apply Consumed.inside
      · rw [hloaded]
        exact hl
      · rw [hq0]
        exact hhead
      · rw [hcount, hbuf]
        exact hn
      · rw [hslot, hcount]
        exact hle
      · intro _
        exact ⟨by rw [hslot,
          hcount]; exact hcur'.slot, by rw [hcmd, hbuf, hslot]; exact hcur'.cmd,
          by rw [hlaunch, hcmd]; exact hcur'.isLaunch, by rw [hres, hcmd]; exact hcur'.noResource⟩
  · rw [hq0]
    exact h.seqnum
  · have heff : new.filter isEffect = new := filter_eq_self.mpr hm.effects
    rw [hm.calls, filter_append, h.effects, heff, hq0, append_assoc]
  · rw [hsatp]
    exact h.performed

theorem fetchIfNeeded (hs : s.engState = .idle) : History s.fetchIfNeeded blocks cur := by
  unfold CommandProcessor.fetchIfNeeded
  split
  · exact h
  rename_i hl
  split
  · exact h
  have hp := h.progress
  rw [hs] at hp
  have hc := h.consumed
  generalize hls : linesOf s.calls = ls at hc
  generalize hcs : blocks.map Block.cmd = cs at hc
  cases hc with
  | inside ls hloaded => exact absurd hloaded hl
  | between _ _ _ hhead =>
    have hlen : ls.length = (fetched s.calls).length := by rw [← hls, linesOf, length_map]
    have hfetch : ∀ addr mem,
        fetched (s.calls ++ [.fetch addr mem]) = fetched s.calls ++ [(addr, mem)] := by
      intro addr mem
      rw [fetched_append]
      rfl
    refine ⟨?_, ?_, h.seqnum, ?_, h.performed, ?_⟩
    · simp [log, hfetch, h.addrs, range_succ, hhead, hlen]
    · have hlines : linesOf (s.calls ++ [.fetch (s.q0.ringAddr s.q0.head) s.dram]) =
          ls ++ [window s.dram (s.q0.ringAddr s.q0.head) clBytes] := by
        rw [linesOf, hfetch, map_append, ← linesOf, hls]
        rfl
      simp only [log, hlines, hcs]
      have hin := Consumed.inside (s := { s.log [.fetch (s.q0.ringAddr s.q0.head) s.dram] with
        clBuf := window s.dram (s.q0.ringAddr s.q0.head) clBytes, clLoaded := true, clCmdSlot := 0,
        clCmdCount := unpackCl (window s.dram (s.q0.ringAddr s.q0.head) clBytes) })
        ls rfl hhead rfl (Nat.zero_le _) (fun hne => absurd hs hne)
      simpa [log] using hin
    · simpa [log, isEffect] using h.effects
    · cases hp with
      | idle hl => exact progress_idle hl hs

theorem loadNextCmd (hs : s.engState = .idle) :
    History (if s.loadNextCmd.2 then { s.loadNextCmd.1 with engState := .decode }
      else s.loadNextCmd.1) blocks cur := by
  have hp := h.progress
  rw [hs] at hp
  have hc := h.consumed
  unfold CommandProcessor.loadNextCmd
  split
  · exact h
  rename_i hl
  generalize hls : linesOf s.calls = ls at hc
  generalize hcs : blocks.map Block.cmd = cs at hc
  cases hc with
  | between _ hunl => exact absurd hunl hl
  | inside ls hloaded hhead hn hle hcur =>
    cases hp with
    | idle hlaunch =>
      split
      · -- the line is used up
        rename_i hdone
        have htake : (lineCmds s.clBuf).take s.clCmdSlot = lineCmds s.clBuf := by
          apply take_of_length_le
          rw [length_lineCmds, ← hn]
          exact hdone
        refine { h with consumed := ?_, progress := ?_ }
        · have hnext : add64 s.q0.head clBytes = 64 * (ls ++ [s.clBuf]).length % 2 ^ 64 := by
            rw [hhead, length_append, length_singleton]
            simp only [add64, clBytes]
            omega
          have hbetween := Consumed.between (s := { s with
            q0 := { s.q0 with head := add64 s.q0.head clBytes }, clLoaded := false })
            (ls ++ [s.clBuf]) rfl hs hnext
          rw [flatMap_append, flatMap_singleton] at hbetween
          simp only [Bool.false_eq_true, if_false, hls, hcs, htake]
          exact hbetween
        · simp only [Bool.false_eq_true, if_false]
          exact progress_idle hlaunch hs
      · rename_i hmore
        refine { h with consumed := ?_, progress := Progress.decode hlaunch }
        simp only [if_true, hls, hcs]
        exact Consumed.inside ls hloaded hhead hn hle
          (fun _ => ⟨Nat.lt_of_not_le hmore, rfl, rfl, rfl⟩)

end

section
variable (h : History s blocks cur)
include h

theorem retire (hs : s.engState = .retire) (ht : s.tickEngine rsp = some t) :
    History t (blocks ++ [⟨s.curCmd, cur⟩]) [] := by
  have hp := h.progress
  rw [hs] at hp
  obtain ⟨hloaded, hcur⟩ := h.current (by simp [hs])
  simp only [CommandProcessor.tickEngine, hs, publishCompletion_eq, Option.some.injEq] at ht
  have hseq : add64 s.q0.seqnum 1 = (blocks.length + 1) % 2 ^ 64 := by
    rw [h.seqnum]
    simp only [add64]
    omega
  have heff := isEffect_completion s.q0.cmplAddr (add64 s.q0.seqnum 1)
  have hfetch : fetched t.calls = fetched s.calls := by
    rw [← ht]
    simp [log, fetched_append, fetched_of_effects heff]
  have hlines : linesOf t.calls = linesOf s.calls := by rw [linesOf, hfetch, linesOf]
  cases hp with
  | retire _ hl hperf =>
    refine ⟨?_, ?_, ?_, ?_, ?_, ?_⟩
    · rw [hfetch, ← ht]
      exact h.addrs
    · have hc := h.consumed
      rw [hlines, map_append]
      generalize linesOf s.calls = ls at hc ⊢
      generalize blocks.map Block.cmd = cs at hc ⊢
      cases hc with
      | between _ hunl => simp [hunl] at hloaded
      | inside ls _ hhead hn _ _ =>
        have htake : (lineCmds s.clBuf).take s.clCmdSlot ++ [s.curCmd] =
            (lineCmds s.clBuf).take (s.clCmdSlot + 1) := by
          have hslot : s.clCmdSlot < unpackCl s.clBuf := hn ▸ hcur.slot
          rw [take_add_one, lineCmds_getElem? hslot, hcur.cmd]
          rfl
        rw [append_assoc, map_singleton, htake, ← ht]
        exact Consumed.inside ls hloaded hhead hn hcur.slot (fun hne => absurd rfl hne)
    · rw [← ht, length_append, length_singleton]
      exact hseq
    · have hfilter := filter_eq_self.mpr heff
      rw [← ht, append_nil, issued_append, ← hseq]
      simp only [log, filter_append, h.effects, hfilter, append_assoc]
    · intro b hb
      rw [← ht]
      rcases mem_append.mp hb with hb | hb
      · exact h.performed b hb
      · rw [mem_singleton.mp hb]
        exact hperf
    · rw [← ht]
      exact Progress.idle hl

theorem tickEngine (ht : s.tickEngine rsp = some t) : ∃ blocks' cur', History t blocks' cur' := by
  by_cases hidle : s.engState = .idle
  · have hnext := (h.fetchIfNeeded hidle).loadNextCmd (s := s.fetchIfNeeded) (by
      unfold CommandProcessor.fetchIfNeeded
      split
      · exact hidle
      · split <;> exact hidle)
    simp only [CommandProcessor.tickEngine, hidle] at ht
    refine ⟨blocks, cur, ?_⟩
    split at ht
    · rename_i hload
      rw [if_pos hload] at hnext
      exact Option.some.inj ht ▸ hnext
    · rename_i hload
      rw [if_neg hload] at hnext
      exact Option.some.inj ht ▸ hnext
  · by_cases hretire : s.engState = .retire
    · exact ⟨_, _, h.retire hretire ht⟩
    · obtain ⟨_, hcur⟩ := h.current hidle
      obtain ⟨new, hm⟩ :=
        tickEngine_makes hcur.isLaunch hcur.noResource h.progress hidle hretire ht
      exact ⟨_, _, h.makes hidle hm⟩

theorem tickLaunch (b : Bool) : ∃ cur', History (s.tickLaunch b) blocks cur' := by
  by_cases hl : s.launchState = .idle
  · rw [tickLaunch_of_idle b hl]
    exact ⟨cur, h⟩
  · have hidle : s.engState ≠ .idle := by
      intro hs
      exact hl (h.progress.launch_idle (by simp [hs]) (by simp [hs]))
    obtain ⟨new, hm⟩ := (makes_stay h.progress).tickLaunch b
    exact ⟨_, h.makes hidle hm⟩

theorem outside (cycle tail lo : ℕ) (mem : Mem) :
    History (s.outside cycle tail lo mem) blocks cur := by
  refine { h with consumed := ?_, progress := ?_ }
  · have hc := h.consumed
    change Consumed _ (linesOf s.calls) _
    generalize linesOf s.calls = ls at hc ⊢
    generalize blocks.map Block.cmd = cs at hc ⊢
    cases hc with
    | between _ hl hs hhead => exact Consumed.between ls hl hs hhead
    | inside ls hl hhead hn hle hcur =>
      exact Consumed.inside ls hl hhead hn hle
        (fun hs => ⟨(hcur hs).slot, (hcur hs).cmd, (hcur hs).isLaunch, (hcur hs).noResource⟩)
  · have hp := h.progress
    change Progress s.satp _ s.engState cur
    generalize s.engState = e at hp ⊢
    cases hp <;> constructor <;> assumption

theorem tick {busy : Bool} (ht : s.tick busy rsp = some t) :
    ∃ blocks' cur', History t blocks' cur' := by
  have hcycle := h.outside (add64 s.cycleCounter 1) s.q0.tail s.q0.tailLoStaging s.dram
  simp only [CommandProcessor.tick] at ht
  split at ht
  · obtain ⟨t', ht', rfl⟩ := Option.map_eq_some_iff.mp ht
    obtain ⟨blocks', cur', h'⟩ := hcycle.tickEngine ht'
    obtain ⟨cur'', h''⟩ := h'.tickLaunch busy
    exact ⟨blocks', cur'', h''⟩
  · exact ⟨blocks, cur, Option.some.inj ht ▸ hcycle⟩

end

end History

end VortexGpu.Cp

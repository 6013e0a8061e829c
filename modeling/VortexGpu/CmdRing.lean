import VortexGpu.CmdHistory
import VortexGpu.RingBuffer

/-!
# The processor as the consumer of its ring

What a tick does to the ring: it leaves the committed tail alone, fetches at most
one line, the one at the head, and writes to memory only where `stores` says,
which is known before the tick.
-/

namespace VortexGpu.Cp
open ByteMem Word Vm RingBuffer CommandProcessor Option List

def copyRanges (dst total : ℕ) : List (ℕ × ℕ) :=
  (range ((total + copyChunk - 1) / copyChunk)).map
    (fun i => (add64 dst (i * copyChunk), min (total - i * copyChunk) copyChunk))

namespace CommandProcessor

def bidStores [VmBuild] (s : CommandProcessor) : List (ℕ × ℕ) :=
  if s.curCmd.op = .eventSig then [(s.curCmd.arg0, 8)]
  else if isMem s.curCmd.op then
    match memDst s.satp s.dram s.curCmd with
    | some dst => copyRanges dst s.curCmd.arg2
    | none => []
  else []

def stores [VmBuild] (s : CommandProcessor) : List (ℕ × ℕ) :=
  match s.engState with
  | .bid => s.bidStores
  | .retire => if s.q0.cmplAddr = 0 then [] else [(s.q0.cmplAddr, 8)]
  | _ => []

end CommandProcessor

def Outside (a : ℕ) (ranges : List (ℕ × ℕ)) : Prop :=
  ∀ r ∈ ranges, a < r.1 ∨ r.1 + r.2 ≤ a

section Stores
variable {s t : CommandProcessor} {rsp : ℕ → ℕ → ℕ} {busy : Bool} {a : ℕ}

theorem copyStep_outside {i dst src total : ℕ} {r : Mem × List HookCall}
    (h : a < add64 dst (i * copyChunk) ∨
      add64 dst (i * copyChunk) + min (total - i * copyChunk) copyChunk ≤ a) :
    (copyStep dst src total r i).1 a = r.1 a := by
  unfold copyStep
  dsimp only
  rw [writeBytes_of_not_mem]
  rwa [length_readBytes]

theorem foldl_copyStep_outside {dst src total : ℕ} {l : List ℕ} (r : Mem × List HookCall)
    (h : ∀ i ∈ l, a < add64 dst (i * copyChunk) ∨
      add64 dst (i * copyChunk) + min (total - i * copyChunk) copyChunk ≤ a) :
    (l.foldl (copyStep dst src total) r).1 a = r.1 a := by
  induction l generalizing r with
  | nil => rfl
  | cons i l ih =>
    rw [foldl_cons, ih _ (fun j hj => h j (mem_cons_of_mem _ hj))]
    exact copyStep_outside (h i mem_cons_self)

theorem copied_outside (mem : Mem) {dst : ℕ} (src : ℕ) {total : ℕ}
    (h : Outside a (copyRanges dst total)) : (copied mem dst src total).1 a = mem a := by
  rw [copied, foldl_copyStep_outside]
  intro i hi
  exact h _ (List.mem_map.mpr ⟨i, hi, rfl⟩)

theorem startLaunch_dram [VmBuild] {c : Cmd} (hc : c.isLaunch = true)
    (h : s.startLaunch c = some t) : t.dram = s.dram := by
  obtain ⟨pre, _, _, rfl⟩ := startLaunch_spec hc h
  rfl

theorem copy_outside {r : Mem × List HookCall} (h : r.1 a = s.dram a)
    (ht : t = { s.log (.view s.dram :: r.2) with dram := r.1 }) : t.toRetire.dram a = s.dram a := by
  rw [ht]
  exact h

theorem execMem_outside [VmBuild] {c : Cmd}
    (hout : ∀ dst ∈ memDst s.satp s.dram c, Outside a (copyRanges dst c.arg2))
    (h : (s.execMem c).map toRetire = some t) : t.dram a = s.dram a := by
  obtain ⟨t', ht', rfl⟩ := map_eq_some_iff.mp h
  rcases execMem_spec ht' with ⟨_, rfl⟩ | ⟨_, dst, src, hdst, _, hcopy⟩
  · rfl
  · exact copy_outside (copied_outside s.dram src (hout dst hdst)) hcopy

theorem dispatch_outside [VmBuild] (hout : Outside a s.bidStores)
    (h : s.dispatch rsp s.curCmd = some t) : t.dram a = s.dram a := by
  have hmem : isMem s.curCmd.op = true →
      ∀ dst ∈ memDst s.satp s.dram s.curCmd, Outside a (copyRanges dst s.curCmd.arg2) := by
    intro hop dst hdst
    have hne : s.curCmd.op ≠ .eventSig := by
      intro he
      simp [isMem, he] at hop
    simpa only [bidStores, if_neg hne, if_pos hop, mem_def.mp hdst] using hout
  unfold dispatch at h
  split at h
  · obtain ⟨phys, _, h⟩ := bind_eq_some_iff.mp h
    rw [← some.inj h]
    rfl
  · rw [← some.inj h]
    rfl
  · rw [← some.inj h]
    rfl
  · rw [← some.inj h]
    rfl
  · rename_i hop
    rw [← some.inj h]
    have hslot := hout (s.curCmd.arg0, 8) (by simp [bidStores, hop])
    apply writeBytes_of_not_mem
    rwa [length_bytesLE]
  · split at h <;> rw [← some.inj h] <;> rfl
  · rename_i hop
    exact execMem_outside (hmem (by simp [isMem, hop])) h
  · rename_i hop
    exact execMem_outside (hmem (by simp [isMem, hop])) h
  · rename_i hop
    exact execMem_outside (hmem (by simp [isMem, hop])) h
  · rw [← some.inj h]
    rfl

theorem drawNext_dram [VmBuild] (h : s.drawNext rsp = some t) : t.dram = s.dram := by
  obtain ⟨⟨u, launched⟩, hu, h⟩ := bind_eq_some_iff.mp h
  have hdram : u.dram = s.dram := by
    rcases execInlineCmd_spec hu with ⟨_, pre, _, _, rfl⟩ | ⟨_, _, r, rfl⟩ <;> rfl
  dsimp only at h
  split at h <;> rw [← some.inj h] <;> exact hdram

theorem fetchIfNeeded_dram (s : CommandProcessor) : s.fetchIfNeeded.dram = s.dram := by
  unfold CommandProcessor.fetchIfNeeded
  split
  · rfl
  · split <;> rfl

theorem loadNextCmd_dram (s : CommandProcessor) : s.loadNextCmd.1.dram = s.dram := by
  unfold CommandProcessor.loadNextCmd
  split
  · rfl
  · split <;> rfl

theorem tickEngine_outside [VmBuild]
    (hlaunch : s.engState ≠ .idle → s.curIsLaunch = s.curCmd.isLaunch)
    (hout : Outside a s.stores) (h : s.tickEngine rsp = some t) : t.dram a = s.dram a := by
  unfold CommandProcessor.tickEngine at h
  split at h
  · have hdram : s.fetchIfNeeded.loadNextCmd.1.dram = s.dram :=
      (loadNextCmd_dram _).trans (fetchIfNeeded_dram s)
    simp only at h
    split at h <;> rw [← some.inj h] <;> exact congrFun hdram a
  · rw [← some.inj h]
  · rename_i hs
    simp only [stores, hs] at hout
    unfold bid at h
    split at h
    · rename_i hc
      rw [hlaunch (by simp [hs])] at hc
      obtain ⟨u, hu, rfl⟩ := map_eq_some_iff.mp h
      exact congrFun (startLaunch_dram hc hu) a
    · exact dispatch_outside hout h
  · split at h <;> rw [← some.inj h]
    rfl
  · split at h
    · rw [← some.inj h]
      rfl
    · exact congrFun (drawNext_dram h) a
  · split at h <;> rw [← some.inj h]
  · rename_i hs
    simp only [stores, hs] at hout
    rw [← some.inj h, publishCompletion_eq]
    split
    · rfl
    · rename_i hne
      have hslot := hout (s.q0.cmplAddr, 8) (by rw [if_neg hne]; exact mem_singleton_self _)
      apply writeBytes_of_not_mem
      rwa [length_bytesLE]

end Stores

/-- What a tick does to the ring registers and to the lines fetched. -/
structure RingStep (s t : CommandProcessor) : Prop where
  regs : ∃ head seqnum, t.q0 = { s.q0 with head := head, seqnum := seqnum }
  fetch : fetched t.calls = fetched s.calls ∨
    s.clLoaded = false ∧ s.q0.head < s.q0.tail ∧
      fetched t.calls = fetched s.calls ++ [(s.q0.ringAddr s.q0.head, s.dram)]

namespace RingStep
variable {s t u : CommandProcessor} {blocks : List Block}
  {cur new : List HookCall} {rsp : ℕ → ℕ → ℕ} {busy : Bool}

theorem of_eq (hq0 : t.q0 = s.q0) (hf : fetched t.calls = fetched s.calls) : RingStep s t :=
  ⟨⟨s.q0.head, s.q0.seqnum, hq0⟩, Or.inl hf⟩

theorem trans (h : RingStep s t)
    (hq0 : ∃ head seqnum, u.q0 = { t.q0 with head := head, seqnum := seqnum })
    (hf : fetched u.calls = fetched t.calls) : RingStep s u := by
  obtain ⟨head, seqnum, ht⟩ := h.regs
  obtain ⟨head', seqnum', hu⟩ := hq0
  refine ⟨⟨head', seqnum', by rw [hu, ht]⟩, ?_⟩
  rw [hf]
  exact h.fetch

theorem fetchIfNeeded (s : CommandProcessor) : RingStep s s.fetchIfNeeded := by
  unfold CommandProcessor.fetchIfNeeded
  split
  · exact of_eq rfl rfl
  rename_i hl
  split
  · exact of_eq rfl rfl
  · rename_i hlt
    refine ⟨⟨s.q0.head, s.q0.seqnum, rfl⟩,
      Or.inr ⟨Bool.eq_false_iff.mpr hl, by omega, ?_⟩⟩
    simp only [log, fetched_append]
    rfl

theorem loadNextCmd (s : CommandProcessor) :
    (∃ head seqnum, s.loadNextCmd.1.q0 = { s.q0 with head := head, seqnum := seqnum }) ∧
      s.loadNextCmd.1.calls = s.calls := by
  unfold CommandProcessor.loadNextCmd
  split
  · exact ⟨⟨s.q0.head, s.q0.seqnum, rfl⟩, rfl⟩
  · split
    · exact ⟨⟨_, s.q0.seqnum, rfl⟩, rfl⟩
    · exact ⟨⟨s.q0.head, s.q0.seqnum, rfl⟩, rfl⟩

theorem idle (s : CommandProcessor) : RingStep s s.fetchIfNeeded.loadNextCmd.1 := by
  obtain ⟨hregs, hcalls⟩ := loadNextCmd s.fetchIfNeeded
  exact (fetchIfNeeded s).trans hregs (by rw [hcalls])

theorem tickEngine [VmBuild] (h : History s blocks cur) (ht : s.tickEngine rsp = some t) :
    RingStep s t := by
  by_cases hidle : s.engState = .idle
  · have hring := idle s
    simp only [CommandProcessor.tickEngine, hidle] at ht
    split at ht
    · rw [← some.inj ht]
      exact hring.trans ⟨_, _, rfl⟩ rfl
    · rw [← some.inj ht]
      exact hring
  · by_cases hretire : s.engState = .retire
    · simp only [CommandProcessor.tickEngine, hretire, publishCompletion_eq, some.injEq] at ht
      refine ⟨⟨s.q0.head, add64 s.q0.seqnum 1, by rw [← ht]; rfl⟩, Or.inl ?_⟩
      rw [← ht]
      simp only [log, fetched_append]
      rw [fetched_of_effects (isEffect_completion _ _), append_nil]
    · obtain ⟨_, hcur⟩ := h.current hidle
      obtain ⟨new, hm⟩ :=
        tickEngine_makes hcur.isLaunch hcur.noResource h.progress hidle hretire ht
      apply of_eq hm.frame.q0
      rw [hm.calls, fetched_append, fetched_of_effects hm.effects, append_nil]

theorem tickLaunch (h : RingStep s t) (b : Bool) : RingStep s (t.tickLaunch b) := by
  obtain ⟨hframe, hcalls, _⟩ := tickLaunch_frame b t
  refine h.trans ⟨t.q0.head, t.q0.seqnum, hframe.q0⟩ ?_
  rw [hcalls, fetched_append, fetched_of_effects (isEffect_launchCalls b _), append_nil]

theorem tick [VmBuild] (h : History s blocks cur) (ht : s.tick busy rsp = some t) :
    RingStep s t := by
  have hcycle := h.outside (add64 s.cycleCounter 1) s.q0.tail s.q0.tailLoStaging s.dram
  simp only [CommandProcessor.tick] at ht
  split at ht
  · obtain ⟨u, hu, rfl⟩ := map_eq_some_iff.mp ht
    obtain ⟨hregs, hfetch⟩ := (tickEngine hcycle hu).tickLaunch busy
    exact ⟨hregs, hfetch⟩
  · rw [← some.inj ht]
    exact of_eq rfl rfl

end RingStep

section Tick
variable {s t : CommandProcessor} {blocks : List Block}
  {cur : List HookCall} {rsp : ℕ → ℕ → ℕ} {busy : Bool} {a : ℕ}

theorem tick_outside [VmBuild] (h : History s blocks cur) (hout : Outside a s.stores)
    (ht : s.tick busy rsp = some t) : t.dram a = s.dram a := by
  simp only [CommandProcessor.tick] at ht
  split at ht
  · obtain ⟨u, hu, rfl⟩ := map_eq_some_iff.mp ht
    obtain ⟨_, _, _, hdram, _⟩ := tickLaunch_frame busy u
    rw [hdram]
    exact tickEngine_outside (s := { s with cycleCounter := add64 s.cycleCounter 1 })
      (fun hs => (h.current hs).2.isLaunch) hout hu
  · rw [← some.inj ht]

theorem fetched_fetchIfNeeded (hl : s.clLoaded = false) (hlt : s.q0.head < s.q0.tail) :
    fetched s.fetchIfNeeded.calls = fetched s.calls ++ [(s.q0.ringAddr s.q0.head, s.dram)] := by
  unfold CommandProcessor.fetchIfNeeded
  rw [if_neg (by simp [hl]), if_neg (by omega)]
  simp only [log, fetched_append]
  rfl

theorem tickEngine_fetches [VmBuild] (hs : s.engState = .idle) (hl : s.clLoaded = false)
    (hlt : s.q0.head < s.q0.tail) (ht : s.tickEngine rsp = some t) :
    fetched t.calls = fetched s.calls ++ [(s.q0.ringAddr s.q0.head, s.dram)] := by
  have hload := (RingStep.loadNextCmd s.fetchIfNeeded).2
  rw [← fetched_fetchIfNeeded hl hlt, ← hload]
  simp only [CommandProcessor.tickEngine, hs] at ht
  split at ht <;> rw [← some.inj ht]

theorem tick_fetches [VmBuild] (hs : s.engState = .idle) (hl : s.clLoaded = false)
    (he : s.enabled = true) (hlt : s.q0.head < s.q0.tail) (ht : s.tick busy rsp = some t) :
    fetched t.calls = fetched s.calls ++ [(s.q0.ringAddr s.q0.head, s.dram)] := by
  simp only [CommandProcessor.tick] at ht
  split at ht
  · obtain ⟨u, hu, rfl⟩ := map_eq_some_iff.mp ht
    rw [(tickLaunch_frame busy u).2.1, fetched_append,
      fetched_of_effects (isEffect_launchCalls busy _), append_nil]
    exact tickEngine_fetches (s := { s with cycleCounter := add64 s.cycleCounter 1 }) hs hl hlt hu
  · rename_i hne
    exact absurd he hne

end Tick

end VortexGpu.Cp

import VortexGpu.RingSafety

/-!
# What happens past the limits of the protocol

Runs that leave the conditions of the protocol, built from the steps of one thread:
a batch that is longer than the ring, and `2 ^ 32` submissions, one after the other,
the last of which is polled for in vain.
-/

namespace VortexGpu.Runtime
open ByteMem Word Vm Cp Runs RingBuffer Device CommandProcessor Reaches Function List

section
variable [VmBuild]

section Steps
variable {s t : Device} {i : ℕ} {cl : Mem} {m : Mode} {off n : ℕ}

theorem reaches_go (hs : s.go i = t) : Reaches step s t :=
  head (a := .go i) (by rw [← hs]; rfl) (refl t)

theorem reaches_copied (k : ℕ) (hpc : s.pc i = .copy m cl off n) (hn : n + k = cpClBytes) :
    ∃ mem, (∀ j < k, mem (s.cp.q0.ringBase + off + n + j) = cl (n + j)) ∧
      (∀ a < s.cp.q0.ringBase + off + n, mem a = s.cp.dram a) ∧
      Reaches step s ({ s with cp := { s.cp with dram := mem } }.goto i
        (.copy m cl off cpClBytes)) := by
  induction k generalizing s n with
  | zero =>
    refine ⟨s.cp.dram, fun j hj => absurd hj (Nat.not_lt_zero j), fun _ _ => rfl, ?_⟩
    have hsame :
        { s with cp := { s.cp with dram := s.cp.dram } }.goto i (.copy m cl off cpClBytes) = s := by
      rw [← hn, add_zero, ← hpc]
      simp [goto]
    rw [hsame]
    exact refl s
  | succ k ih =>
    have hgo : s.go i = s.copyByte i m cl off n := by
      unfold go
      rw [hpc]
      exact if_pos (by omega)
    obtain ⟨mem, hbytes, hbelow, hreach⟩ := ih (s := s.copyByte i m cl off n) (n := n + 1)
      (by simp [copyByte, goto]) (by omega)
    refine ⟨mem, ?_, ?_, ?_⟩
    · intro j hj
      cases j with
      | zero =>
        have hb := hbelow (s.cp.q0.ringBase + off + n) (by simp [copyByte, goto])
        rw [add_zero, hb]
        simp [copyByte, goto]
      | succ j =>
        have hb := hbytes j (by omega)
        rw [show n + (j + 1) = n + 1 + j by omega, ← hb]
        congr 1
        simp only [copyByte, goto]
        omega
    · intro a ha
      have hb := hbelow a (by simp [copyByte, goto]; omega)
      rw [hb]
      exact update_of_ne (by omega) _ _
    · apply (reaches_go hgo).trans
      simpa [copyByte, goto] using hreach

theorem reaches_bumped (hpc : s.pc i = .append m cl)
    (hfits : s.ringOff + cpClBytes ≤ cpRingSize) :
    ∃ mem, (∀ j < cpClBytes, mem (s.cp.q0.ringBase + s.ringOff + j) = cl j) ∧
      Reaches step s ({ s with cp := { s.cp with dram := mem } }.bump i m cl) := by
  have hgo : s.go i = s.goto i (.copy m cl s.ringOff 0) := by
    unfold go
    rw [hpc]
    exact if_neg (by omega)
  have hcopy : (s.goto i (.copy m cl s.ringOff 0)).pc i = .copy m cl s.ringOff 0 := by
    simp [goto]
  obtain ⟨mem, hbytes, _, hreach⟩ := reaches_copied cpClBytes hcopy (zero_add _)
  refine ⟨mem, ?_, ?_⟩
  · intro j hj
    have hb := hbytes j hj
    rwa [add_zero, zero_add] at hb
  · apply ((reaches_go hgo).trans hreach).trans
    apply reaches_go (i := i)
    unfold go
    simp only [goto, update_self, lt_irrefl, if_false]
    simp [bump, goto]

theorem reaches_line (cl : Mem) (hpc : s.pc i = .batch) (hflag : s.host.inBatch = true)
    (hfits : s.ringOff + cpClBytes ≤ cpRingSize) (hsmall : s.host.tail + cpClBytes < 2 ^ 64) :
    ∃ t mem, Reaches step s t ∧ t.pc i = .batch ∧ t.host.inBatch = true ∧
      t.host.tail = s.host.tail + cpClBytes ∧
      t.appended = s.appended ++ [window cl 0 cpClBytes] ∧ t.cp = { s.cp with dram := mem } ∧
      ∀ j < cpClBytes, mem (s.cp.q0.ringBase + s.ringOff + j) = cl j := by
  have hcall : step s (.submit i cl) = some (s.goto i (.append .batch cl), ()) := by
    simp [step, cpSubmitCl, hpc, hflag]
  have hsubmit := head hcall (refl _)
  have happend : (s.goto i (.append .batch cl)).pc i = .append .batch cl := by simp [goto]
  obtain ⟨mem, hbytes, hreach⟩ := reaches_bumped happend hfits
  refine ⟨_, mem, (hsubmit.trans hreach).trans (reaches_go (i := i) rfl), ?_, ?_, ?_, ?_,
    ?_, hbytes⟩
  · simp [go, bump, setTarget, withHost, goto]
  · simpa [go, bump, setTarget, withHost, goto] using hflag
  · simpa [go, bump, setTarget, withHost, goto] using
      add64_of_lt hsmall
  · simp [go, bump, setTarget, withHost, goto]
  · simp [go, bump, setTarget, withHost, goto]

theorem reaches_lines (cl : Mem) (n : ℕ) (hpc : s.pc i = .batch) (hflag : s.host.inBatch = true)
    (htail : s.host.tail = 0) (hn : 64 * n < 2 ^ 64) :
    ∃ t mem, Reaches step s t ∧ t.pc i = .batch ∧ t.host.inBatch = true ∧
      t.host.tail = 64 * n ∧ t.appended = s.appended ++ replicate n (window cl 0 cpClBytes) ∧
      t.cp = { s.cp with dram := mem } := by
  induction n with
  | zero => exact ⟨s, s.cp.dram, refl s, hpc, hflag, htail, by simp, rfl⟩
  | succ n ih =>
    obtain ⟨t, mem, hreach, htpc, htflag, httail, happ, hcp⟩ := ih (by omega)
    have hfits := (ringOff_eq httail).2
    obtain ⟨u, mem', hreach', hupc, huflag, hutail, huapp, hucp, _⟩ :=
      reaches_line cl htpc htflag hfits (by unfold cpClBytes; omega)
    refine ⟨u, mem', hreach.trans hreach', hupc, huflag, ?_, ?_, ?_⟩
    · rw [hutail, httail]
      unfold cpClBytes
      omega
    · rw [huapp, happ, replicate_succ', append_assoc]
    · rw [hucp, hcp]

theorem reaches_batch (satp base headAddr cmplAddr : ℕ) (mem : Mem) :
    ∃ s, Reaches step (opened satp base headAddr cmplAddr mem) s ∧ s.pc 0 = .batch ∧
      s.host.inBatch = true ∧ s.host.tail = 0 ∧ s.appended = [] ∧
      s.cp = programmed 1 satp base headAddr cmplAddr 16 1 mem := by
  refine ⟨_, head (a := .batchBegin 0) rfl (head (a := .go 0) rfl
    (head (a := .go 0) rfl (head (a := .go 0) rfl (refl _)))), ?_⟩
  exact ⟨rfl, rfl, rfl, rfl, rfl⟩

theorem reaches_doorbell (hpc : s.pc i = .batch) :
    ∃ t, Reaches step s t ∧ t.appended = s.appended ∧ t.cp = { s.cp with q0 := { s.cp.q0 with
        tail := s.host.tail, tailLoStaging := s.host.tail % 2 ^ 32 } } := by
  have hcall : step s (.batchEnd i) = some (s.goto i (.endFlag s.host.batchTarget), ()) := by
    simp [step, cpBatchEnd, hpc]
  refine ⟨_, head hcall ((reaches_go (i := i) rfl).trans
    ((reaches_go (i := i) rfl).trans (reaches_go (i := i) rfl))), ?_, ?_⟩
  · simp [go, goto, withHost, regWrite]
  · simpa [go, goto, withHost, regWrite, mmioWrite] using
      words_eq s.host.tail

end Steps

theorem tick_idle_isSome (busy : Bool) (rsp : ℕ → ℕ → ℕ)
    (cp : CommandProcessor) (h : cp.engState = .idle) : ∃ cp', cp.tick busy rsp = some cp' := by
  simp only [tick, tickEngine, h]
  split
  · split
    all_goals exact ⟨_, rfl⟩
  · exact ⟨_, rfl⟩

end

/-- After 1024 equal lines a batch writes its next line over the first one. -/
theorem batch_overwrites_first_line :
    letI := noVm
    ∃ as r, run step (opened 0 4096 0 64 (fun _ => 0)) as = some r ∧
      r.1.appended = replicate 1024 (window (fun _ => 7) 0 64) ++ [window (fun _ => 8) 0 64] ∧
      linesOf r.1.cp.calls = [window (fun _ => 8) 0 64] ∧
      ¬ linesOf r.1.cp.calls <+: r.1.appended := by
  let := noVm
  obtain ⟨s₀, hs₀, hpc₀, hflag₀, htail₀, happ₀, hcp₀⟩ :=
    reaches_batch 0 4096 0 64 (fun _ => 0)
  obtain ⟨s₁, mem₁, hs₁, hpc₁, hflag₁, htail₁, happ₁, hcp₁⟩ :=
    reaches_lines (fun _ => 7) 1024 hpc₀ hflag₀ htail₀ (by decide)
  have hoff : s₁.ringOff = 0 := by
    rw [ringOff, htail₁]
    decide
  obtain ⟨s₂, mem₂, hs₂, hpc₂, _, htail₂, happ₂, hcp₂, hbytes⟩ :=
    reaches_line (fun _ => 8) hpc₁ hflag₁ (by rw [hoff]; decide) (by rw [htail₁]; decide)
  obtain ⟨s₃, hs₃, happ₃, hcp₃⟩ := reaches_doorbell hpc₂
  have hcp : s₃.cp = { programmed 1 0 4096 0 64 16 1 mem₂ with
      q0 := ⟨4096, 0, 64, 16, 1, 65600, 65600, 0, 0⟩ } := by
    rw [hcp₃, hcp₂, hcp₁, hcp₀, htail₂, htail₁]
    rfl
  obtain ⟨cp, htick⟩ := tick_idle_isSome false (fun _ _ => 0) s₃.cp (by rw [hcp]; rfl)
  have hfetch := tick_fetches (by rw [hcp]; rfl) (by rw [hcp]; rfl)
    (by rw [hcp]; simp [CommandProcessor.enabled, programmed]) (by rw [hcp]; simp) htick
  have hstep : step s₃ (.tick false (fun _ _ => 0)) = some ({ s₃ with cp := cp }, ()) := by
    simp [step, htick]
  obtain ⟨as, bs, hrun⟩ := (((hs₀.trans hs₁).trans hs₂).trans hs₃).trans
    (head hstep (refl _))
  have happ : s₃.appended =
      replicate 1024 (window (fun _ => 7) 0 64) ++ [window (fun _ => 8) 0 64] := by
    rw [happ₃, happ₂, happ₁, happ₀]
    rfl
  have hline : window mem₂ 4096 64 = window (fun _ => 8) 0 64 := by
    apply window_congr
    intro j hj
    have hb := hbytes j hj
    rwa [hcp₁, hcp₀, hoff] at hb
  have hlines : linesOf cp.calls = [window (fun _ => 8) 0 64] := by
    have haddr : Queue.ringAddr ⟨4096, 0, 64, 16, 1, 65600, 65600, 0, 0⟩ 0 = 4096 := by decide
    rw [linesOf, hfetch, hcp]
    simp only [haddr]
    exact congrArg (fun x => [x]) hline
  refine ⟨as, _, hrun, happ, hlines, ?_⟩
  intro hpre
  rw [hlines, happ, replicate_succ] at hpre
  have hfirst := (cons_prefix_cons.mp hpre).1
  exact absurd (congrFun hfirst 0) (by decide)

section
variable [VmBuild]

section Ticks
variable (busy : Bool) (rsp : ℕ → ℕ → ℕ) {cp u : CommandProcessor}

theorem tick_of_engine (he : cp.enabled = true)
    (hu : ({ cp with cycleCounter := add64 cp.cycleCounter 1 } : CommandProcessor).tickEngine rsp =
      some u) (hl : u.launchState = .idle) : cp.tick busy rsp = some u := by
  have htick : cp.tick busy rsp =
      (({ cp with cycleCounter := add64 cp.cycleCounter 1 } : CommandProcessor).tickEngine rsp).map
        (tickLaunch busy) := if_pos he
  rw [htick, hu, Option.map_some, tickLaunch_of_idle busy hl]

def fenceLine : Mem := fun i => if i = 0 then 7 else 0

/-- What the ticks of a fence need to know of each other. -/
structure Fence (cp u : CommandProcessor) (st : EngState) (loaded : Bool) (slot : ℕ) : Prop where
  eng : u.engState = st
  launch : u.launchState = .idle
  loaded : u.clLoaded = loaded
  slot : u.clCmdSlot = slot
  ctrl : u.cpCtrl = cp.cpCtrl

theorem tickEngine_load (cp : CommandProcessor) (hs : cp.engState = .idle)
    (hl : cp.launchState = .idle) (hc : cp.clLoaded = false) (hlt : cp.q0.head < cp.q0.tail)
    (hline : window cp.dram (cp.q0.ringAddr cp.q0.head) clBytes = window fenceLine 0 clBytes) :
    ∃ u, cp.tickEngine rsp = some u ∧ Fence cp u .decode true 0 ∧ u.curIsNoResource = true ∧
      u.clCmdCount = 1 ∧ u.q0 = cp.q0 := by
  have hcount : unpackCl (window fenceLine 0 clBytes) = 1 := by decide
  have hop : (slotCmd (window fenceLine 0 clBytes) 0).op = .fence := by decide
  have hle : ¬ cp.q0.tail ≤ cp.q0.head := by omega
  simp only [tickEngine, hs, fetchIfNeeded, hc,
    Bool.false_eq_true, if_false, hle, log, hline, hcount, loadNextCmd, hop]
  exact ⟨_, rfl, ⟨rfl, hl, rfl, rfl, rfl⟩, rfl, rfl, rfl⟩

theorem tickEngine_decode (cp : CommandProcessor) (hs : cp.engState = .decode)
    (hn : cp.curIsNoResource = true) :
    cp.tickEngine rsp = some { cp with engState := .retire } := by
  simp [tickEngine, hs, hn]

theorem tickEngine_retire (cp : CommandProcessor) (hs : cp.engState = .retire)
    (hl : cp.launchState = .idle) :
    ∃ u, cp.tickEngine rsp = some u ∧ Fence cp u .idle cp.clLoaded (cp.clCmdSlot + 1) ∧
      u.clCmdCount = cp.clCmdCount ∧ u.q0 = { cp.q0 with seqnum := add64 cp.q0.seqnum 1 } := by
  simp only [tickEngine, hs, publishCompletion_eq]
  exact ⟨_, rfl, ⟨rfl, hl, rfl, rfl, rfl⟩, rfl, rfl⟩

theorem tickEngine_drop (cp : CommandProcessor) (hs : cp.engState = .idle)
    (hc : cp.clLoaded = true) (hle : cp.clCmdCount ≤ cp.clCmdSlot) :
    cp.tickEngine rsp = some { cp with
      q0 := { cp.q0 with head := add64 cp.q0.head clBytes }, clLoaded := false } := by
  simp [tickEngine, hs, fetchIfNeeded, hc, loadNextCmd, hle]

/-- An enabled processor with nothing to do after `n` lines of one command each. -/
structure Resting (cp : CommandProcessor) (n : ℕ) : Prop where
  enabled : cp.enabled = true
  ring : cp.q0.ringBase = 4096 ∧ cp.q0.ringLog2 = 16
  eng : cp.engState = .idle
  launch : cp.launchState = .idle
  loaded : cp.clLoaded = false
  head : cp.q0.head = 64 * n
  seqnum : cp.q0.seqnum = n

theorem reaches_tick {s : Device} (h : s.cp.tick busy rsp = some u) :
    Reaches step s { s with cp := u } := by
  have hstep : step s (.tick busy rsp) = some ({ s with cp := u }, ()) := by simp [step, h]
  exact head hstep (refl _)

omit [VmBuild] in
theorem Fence.enabled {st : EngState} {loaded : Bool} {slot : ℕ} (h : Fence cp u st loaded slot)
    (he : cp.enabled = true) (hq : u.q0.control = cp.q0.control) : u.enabled = true := by
  unfold CommandProcessor.enabled at he ⊢
  rw [h.ctrl, hq]
  exact he

theorem reaches_retired {s : Device} {n : ℕ} (h : Resting s.cp n)
    (htail : s.cp.q0.tail = 64 * (n + 1))
    (hline : window s.cp.dram (s.cp.q0.ringAddr s.cp.q0.head) clBytes = window fenceLine 0 clBytes)
    (hn : 64 * (n + 1) < 2 ^ 64) :
    ∃ cp, Reaches step s { s with cp := cp } ∧ Resting cp (n + 1) ∧
      cp.q0.tail = s.cp.q0.tail := by
  obtain ⟨u₁, h₁, hf₁, hres, hcount₁, hq₁⟩ := tickEngine_load (fun _ _ => 0)
    { s.cp with cycleCounter := add64 s.cp.cycleCounter 1 } h.eng h.launch h.loaded
    (by rw [h.head, htail]; omega) hline
  have he₁ := hf₁.enabled h.enabled (by rw [hq₁])
  have h₂ := tickEngine_decode (fun _ _ => 0)
    { u₁ with cycleCounter := add64 u₁.cycleCounter 1 } hf₁.eng hres
  obtain ⟨u₃, h₃, hf₃, hcount₃, hq₃⟩ := tickEngine_retire (fun _ _ => 0)
    { u₁ with engState := .retire,
                     cycleCounter := add64 (add64 u₁.cycleCounter 1) 1 } rfl hf₁.launch
  have he₃ := hf₃.enabled he₁ (by rw [hq₃])
  have h₄ := tickEngine_drop (fun _ _ => 0)
    { u₃ with
      cycleCounter := add64 u₃.cycleCounter 1 } hf₃.eng (hf₃.loaded.trans hf₁.loaded)
    (by rw [hcount₃, hcount₁, hf₃.slot]; omega)
  refine ⟨_, ((((reaches_tick false _ (tick_of_engine false _ h.enabled h₁ hf₁.launch)).trans
    (reaches_tick false _ (tick_of_engine false _ he₁ h₂ hf₁.launch))).trans
    (reaches_tick false _ (tick_of_engine false _ he₁ h₃ hf₃.launch))).trans
    (reaches_tick false _ (tick_of_engine false _ he₃ h₄ hf₃.launch))), ?_, ?_⟩
  · have hq : u₃.q0 = { s.cp.q0 with seqnum := add64 s.cp.q0.seqnum 1 } := by rw [hq₃, hq₁]
    refine ⟨hf₃.enabled he₁ (by rw [hq₃]), ?_, hf₃.eng, hf₃.launch, rfl, ?_, ?_⟩
    · rw [hq]
      exact h.ring
    · rw [hq]
      change add64 s.cp.q0.head clBytes = 64 * (n + 1)
      rw [h.head]
      exact add64_of_lt hn
    · rw [hq]
      change add64 s.cp.q0.seqnum 1 = n + 1
      rw [h.seqnum]
      exact add64_of_lt (by omega)
  · rw [hq₃, hq₁]

end Ticks

/-- Thread 0 has submitted `n` fences, and all of them are retired. -/
structure Rested (s : Device) (n : ℕ) : Prop where
  pc : s.pc 0 = .idle
  owner : s.host.owner = none
  inBatch : s.host.inBatch = false
  tail : s.host.tail = 64 * n
  expected : s.host.expectedSeqnum = n
  appended : s.appended.length = n
  cp : Resting s.cp n

section Submissions
variable {s : Device} {n : ℕ}

theorem reaches_released {i : ℕ} (hpc : s.pc i = .setTarget .single) : Reaches step s { s with
      cp := { s.cp with q0 := { s.cp.q0 with
        tail := s.host.tail, tailLoStaging := s.host.tail % 2 ^ 32 } },
      host := { s.host with owner := none },
      pc := update s.pc i (.pollWait s.host.expectedSeqnum) } := by
  apply ((((reaches_go (i := i) rfl).trans (reaches_go (i := i) rfl)).trans
    (reaches_go (i := i) rfl)).trans (reaches_go (i := i) _))
  simpa [go, setTarget, goto, withHost, regWrite, unlock, mmioWrite, hpc] using words_eq s.host.tail

theorem reaches_submitted (h : Rested s n) (hn : 64 * (n + 1) < 2 ^ 64) :
    ∃ t, Reaches step s t ∧ t.pc 0 = .pollWait (n + 1) ∧ t.host.owner = none ∧
      t.host.inBatch = false ∧ t.host.tail = 64 * (n + 1) ∧ t.host.expectedSeqnum = n + 1 ∧
      t.appended.length = n + 1 ∧ t.mine 0 = some n ∧ Resting t.cp n ∧
      t.cp.q0.tail = 64 * (n + 1) ∧
      window t.cp.dram (t.cp.q0.ringAddr t.cp.q0.head) clBytes = window fenceLine 0 clBytes := by
  have hcall : step s (.submit 0 fenceLine) = some (s.goto 0 (.submitWait fenceLine), ()) := by
    simp [step, cpSubmitCl, h.pc, h.inBatch]
  have hlock : (s.goto 0 (.submitWait fenceLine)).go 0 =
      (s.withHost { s.host with owner := some 0 }).goto 0 (.append .single fenceLine) := by
    simp [go, goto, lock, withHost, h.owner]
  obtain ⟨hoff, hfits⟩ := ringOff_eq h.tail
  obtain ⟨mem, hbytes, hreach⟩ := reaches_bumped (i := 0) (m := .single)
    (s := (s.withHost { s.host with owner := some 0 }).goto 0 (.append .single fenceLine))
    (by simp [goto]; rfl) hfits
  have hadd : add64 (64 * n) cpClBytes = 64 * (n + 1) := add64_of_lt hn
  have hone : add64 n 1 = n + 1 := add64_of_lt (by omega)
  have hreleased := reaches_released (i := 0)
    (s := { (s.withHost { s.host with owner := some 0 }).goto 0 (.append .single fenceLine) with
      cp := { s.cp with dram := mem } }.bump 0 .single fenceLine) (by simp [bump, goto])
  refine ⟨_, ((head hcall (reaches_go hlock)).trans hreach).trans hreleased, ?_, rfl,
    h.inBatch, ?_, ?_, ?_, ?_, ?_, ?_, ?_⟩
  · simp [bump, goto, withHost, h.expected, hone]
  · simp [bump, goto, withHost, h.tail, hadd]
  · simp [bump, goto, withHost, h.expected, hone]
  · simp [bump, goto, withHost, h.appended]
  · simp [bump, goto, withHost, h.appended]
  · exact { h.cp with }
  · simp [bump, goto, withHost, h.tail, hadd]
  · have hslot := ringAddr_slot (q := s.cp.q0) (k := n) h.cp.ring.2 (by
      rw [h.cp.ring.1]
      decide)
    change window mem (s.cp.q0.ringAddr s.cp.q0.head) clBytes = _
    rw [h.cp.head, hslot]
    apply window_congr
    intro j hj
    have hb := hbytes j hj
    change mem (s.cp.q0.ringBase + s.ringOff + j) = fenceLine j at hb
    rw [hoff] at hb
    rw [zero_add]
    exact hb

theorem reaches_polled (h : Rested s n) (hn : 64 * (n + 1) < 2 ^ 64) :
    ∃ t, Reaches step s t ∧ t.pc 0 = .poll (n + 1) ∧ t.host.inBatch = false ∧
      t.host.tail = 64 * (n + 1) ∧ t.host.expectedSeqnum = n + 1 ∧ t.appended.length = n + 1 ∧
      t.mine 0 = some n ∧ Resting t.cp (n + 1) := by
  obtain ⟨t, hreach, hpc, howner, hflag, htail, hexp, hlen, hmine, hcp, hcptail, hline⟩ :=
    reaches_submitted h hn
  obtain ⟨cp, hticks, hrest, _⟩ := reaches_retired hcp hcptail hline hn
  have hgo : { t with cp := cp }.go 0 =
      { t with cp := cp, host := { t.host with owner := some 0 },
               pc := update t.pc 0 (.poll (n + 1)) } := by
    simp [go, lock, goto, withHost, hpc, howner]
  refine ⟨_, (hreach.trans hticks).trans (reaches_go hgo), ?_, hflag, htail, hexp, hlen, hmine,
    hrest⟩
  exact update_self 0 _ t.pc

theorem reaches_rested (satp headAddr cmplAddr : ℕ) (mem : Mem) (n : ℕ) (hn : n < 2 ^ 32) :
    ∃ s, Reaches step (opened satp 4096 headAddr cmplAddr mem) s ∧ Rested s n := by
  induction n with
  | zero =>
    refine ⟨_, refl _, rfl, rfl, rfl, rfl, rfl, rfl, ?_, ⟨rfl, rfl⟩, rfl, rfl, rfl,
      rfl, rfl⟩
    simp [CommandProcessor.enabled, opened, programmed]
  | succ n ih =>
    obtain ⟨s, hs, hrested⟩ := ih (by omega)
    obtain ⟨t, hreach, hpc, hflag, htail, hexp, hlen, _, hcp⟩ :=
      reaches_polled hrested (by omega)
    have hdone : t.pollDone (n + 1) = true := by
      rw [pollDone, hcp.seqnum, decide_eq_true_iff]
      omega
    have hgo : t.go 0 = t.unlock 0 .idle := by simp [go, hpc, hdone]
    refine ⟨_, (hs.trans hreach).trans (reaches_go hgo), ?_, rfl, hflag, htail, hexp, hlen, hcp⟩
    exact update_self 0 _ t.pc

end Submissions

end

/-- After `2 ^ 32` retired commands the last submitter still waits. -/
theorem poll_misses_completion :
    letI := noVm
    ∃ as r, run step (opened 0 4096 0 64 (fun _ => 0)) as = some r ∧
      r.1.pc 0 = .poll (2 ^ 32) ∧ r.1.mine 0 = some (2 ^ 32 - 1) ∧
      r.1.appended.length = 2 ^ 32 ∧
      r.1.cp.q0.seqnum = 2 ^ 32 ∧ r.1.pollDone (2 ^ 32) = false := by
  let := noVm
  obtain ⟨s, hs, hrested⟩ := reaches_rested 0 0 64 (fun _ => 0) (2 ^ 32 - 1) (by decide)
  obtain ⟨t, hreach, hpc, _, _, _, hlen, hmine, hcp⟩ := reaches_polled hrested (by decide)
  obtain ⟨as, bs, hrun⟩ := hs.trans hreach
  have hcount : 2 ^ 32 - 1 + 1 = 2 ^ 32 := by norm_num
  rw [hcount] at hpc hlen hcp
  refine ⟨as, _, hrun, hpc, hmine, hlen, hcp.seqnum, ?_⟩
  rw [pollDone, hcp.seqnum]
  simp

end VortexGpu.Runtime

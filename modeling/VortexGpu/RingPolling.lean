import VortexGpu.RingSafety
import VortexGpu.CmdRuns

/-!
# Waiting for completion

A submitter polls the sequence register until it has reached the number of
commands submitted up to its own last one. While every line holds one command,
fewer than `2 ^ 32` commands were submitted and no batch is empty, the test of the
poll loop is true exactly when that command has been retired.
-/

namespace VortexGpu.Runtime
open Function (update update_of_ne update_self)
open ByteMem Word Vm Cp Runs RingBuffer List

def One (cl : Mem) : Prop := unpackCl (window cl 0 cpClBytes) = 1

def Counted (s : Device) : Action → Prop
  | .submit _ cl => One cl
  | .go i => copying (s.pc i) = true → s.host.expectedSeqnum + 1 < 2 ^ 32
  | .batchEnd i => s.mine i ≠ none
  | .tick _ _ => True
  | .poke _ _ => True
  | .batchBegin _ => True

theorem lineCmds_one {x : Mem} (h : unpackCl x = 1) : lineCmds x = [slotCmd x 0] := by
  unfold lineCmds
  rw [h]
  rfl

theorem flatMap_ones {ls : List Mem} (h : ∀ x ∈ ls, unpackCl x = 1) :
    ls.flatMap lineCmds = ls.map (fun x => slotCmd x 0) := by
  induction ls with
  | nil => rfl
  | cons x ls ih =>
    rw [flatMap_cons, lineCmds_one (h x mem_cons_self), ih (fun y hy => h y (mem_cons_of_mem _ hy))]
    rfl

def Polled [VmBuild] (s : Device) (a : Action) : Prop := Allowed s a ∧ Counted s a

instance Counted.decidable (s : Device) : ∀ a : Action, Decidable (Counted s a)
  | .submit _ _ => inferInstanceAs (Decidable (_ = 1))
  | .go _ => inferInstanceAs (Decidable (_ → _))
  | .batchEnd _ => inferInstanceAs (Decidable (_ ≠ _))
  | .tick _ _ => .isTrue trivial
  | .poke _ _ => .isTrue trivial
  | .batchBegin _ => .isTrue trivial

instance Polled.decidable [VmBuild] (s : Device) (a : Action) : Decidable (Polled s a) :=
  inferInstanceAs (Decidable (_ ∧ _))

def Last (s : Device) (i target : ℕ) : Prop :=
  ∃ k, s.mine i = some k ∧ target = k + 1 ∧ k < s.appended.length

def Target (s : Device) (i : ℕ) : Pc → Prop
  | .submitWait cl => One cl
  | .append _ cl => One cl
  | .copy _ cl _ _ => One cl
  | .setTarget _ => Last s i s.host.expectedSeqnum
  | .batch => s.mine i = none ∨ Last s i s.host.batchTarget
  | .endFlag target => Last s i target
  | .tailLo target => Last s i target
  | .tailHi target => Last s i target
  | .unlock target => Last s i target
  | .pollWait target => Last s i target
  | .poll target => Last s i target
  | _ => True

structure Polls (s : Device) : Prop where
  ones : ∀ x ∈ s.appended, unpackCl x = 1
  few : s.appended.length < 2 ^ 32
  targets : ∀ i, Target s i (s.pc i)

section Steps
variable {base i : ℕ} {s t : Device} {p : Pc}

theorem Last.grow {target : ℕ} (h : Last s i target) (hmine : t.mine i = s.mine i)
    (hlen : s.appended.length ≤ t.appended.length) : Last t i target := by
  obtain ⟨k, hk, htarget, hlt⟩ := h
  exact ⟨k, hmine.trans hk, htarget, hlt.trans_le hlen⟩

theorem Target.grow (hp : critical p = false) (h : Target s i p) (hmine : t.mine i = s.mine i)
    (hlen : s.appended.length ≤ t.appended.length) : Target t i p := by
  cases p with
  | idle => trivial
  | beginWait => trivial
  | submitWait cl => exact h
  | pollWait target => exact Last.grow h hmine hlen
  | _ => cases hp

section
variable [VmBuild] (h : Polls s)
include h

theorem Polls.move (hsafe : Safe base s)
    (ho : s.host.owner = some i ∨ s.host.owner = none)
    (hones : ∀ x ∈ t.appended, unpackCl x = 1)
    (hfew : t.appended.length < 2 ^ 32) (hpc : t.pc = update s.pc i p)
    (hmine : ∀ j, j ≠ i → t.mine j = s.mine j)
    (hlen : s.appended.length ≤ t.appended.length) (hp : Target t i p) : Polls t := by
  refine ⟨hones, hfew, ?_⟩
  intro j
  rw [hpc]
  by_cases hj : j = i
  · subst hj
    rw [update_self]
    exact hp
  · rw [update_of_ne hj]
    exact (h.targets j).grow (hsafe.others ho hj) (hmine j hj) hlen

theorem Polls.stay (hsafe : Safe base s)
    (ho : s.host.owner = some i ∨ s.host.owner = none) (hpc : t.pc = update s.pc i p)
    (happ : t.appended = s.appended) (hmine : ∀ j, j ≠ i → t.mine j = s.mine j)
    (hp : Target t i p) : Polls t := by
  apply h.move hsafe ho _ _ hpc hmine _ hp
  · rw [happ]
    exact h.ones
  · rw [happ]
    exact h.few
  · rw [happ]

theorem Polls.lock (hsafe : Safe base s)
    (hp : Target ((s.withHost { s.host with owner := some i }).goto i p) i p) :
    Polls (s.lock i p) := by
  unfold Device.lock
  split
  · rename_i ho
    exact h.stay hsafe (.inr ho) rfl rfl (fun _ _ => rfl) hp
  · exact h

omit [VmBuild] in
theorem Polls.goto (hp : Target (s.goto i p) i p) : Polls (s.goto i p) := by
  refine ⟨h.ones, h.few, ?_⟩
  intro j
  by_cases hj : j = i
  · subst hj
    simp only [Device.goto, update_self] at hp ⊢
    exact hp
  · have htarget := h.targets j
    simp only [Device.goto, update_of_ne hj]
    cases hpj : s.pc j <;> rw [hpj] at htarget <;> exact htarget

omit [VmBuild] in
theorem Polls.withCp (cp : CommandProcessor) : Polls { s with cp := cp } := by
  refine ⟨h.ones, h.few, ?_⟩
  intro i
  have htarget := h.targets i
  change Target { s with cp := cp } i (s.pc i)
  cases hp : s.pc i <;> rw [hp] at htarget <;> exact htarget

theorem Polls.setTarget {m : Mode} (hsafe : Safe base s) (hpc : s.pc i = .setTarget m) :
    Polls (s.setTarget i m) := by
  have ho := (hsafe.threads i).mp (by rw [hpc]; rfl)
  have hlast := h.targets i
  rw [hpc] at hlast
  cases m with
  | single => exact h.goto hlast
  | batch => exact h.stay hsafe (.inl ho) rfl rfl (fun _ _ => rfl) (.inr hlast)
  | stray => exact h.stay hsafe (.inl ho) rfl rfl (fun _ _ => rfl) trivial

theorem Polls.bump {m : Mode} {cl : Mem} {off n : ℕ} (hsafe : Safe base s)
    (hpc : s.pc i = .copy m cl off n) (hone : One cl) (hfew : s.host.expectedSeqnum + 1 < 2 ^ 32) :
    Polls (s.bump i m cl) := by
  have ho := (hsafe.threads i).mp (by rw [hpc]; rfl)
  have hexp := hsafe.core.expected
  refine h.move (p := .setTarget m) hsafe (.inl ho) ?_ ?_ rfl ?_ ?_ ?_
  · intro x hx
    rcases mem_append.mp hx with hx | hx
    · exact h.ones x hx
    · rw [mem_singleton.mp hx]
      exact hone
  · simp only [Device.bump, Device.goto, length_append, length_singleton]
    omega
  · intro j hj
    exact update_of_ne hj _ _
  · simp only [Device.bump, Device.goto, length_append]
    omega
  · refine ⟨s.appended.length, update_self _ _ _, ?_, ?_⟩
    · simp only [Device.bump, Device.goto]
      rw [hexp]
      apply add64_of_lt
      omega
    · simp only [Device.bump, Device.goto, length_append, length_singleton]
      omega

theorem Polls.go (hsafe : Safe base s) (ha : Polled s (.go i)) : Polls (s.go i) := by
  have htarget := h.targets i
  have hown : critical (s.pc i) = true → s.host.owner = some i := (hsafe.threads i).mp
  unfold Device.go
  cases hpc : s.pc i with
  | idle => exact h
  | batch => exact h
  | beginWait => exact h.lock hsafe trivial
  | beginFlag =>
    exact h.stay hsafe (.inl (hown (by rw [hpc]; rfl))) rfl rfl (fun _ _ => rfl) trivial
  | beginTarget =>
    refine h.stay (p := .batch) hsafe (.inl (hown (by rw [hpc]; rfl))) rfl rfl ?_ ?_
    · intro j hj
      exact update_of_ne hj _ _
    · exact .inl (update_self _ _ _)
  | submitWait cl =>
    rw [hpc] at htarget
    exact h.lock hsafe htarget
  | append m cl =>
    rw [hpc] at htarget
    obtain ⟨_, hfits⟩ := hsafe.core.slot_eq
    unfold Device.append
    simp only
    rw [if_neg (by omega)]
    exact h.goto htarget
  | copy m cl off n =>
    rw [hpc] at htarget
    dsimp only
    split
    · exact h.stay hsafe (.inl (hown (by rw [hpc]; rfl))) rfl rfl (fun _ _ => rfl) htarget
    · exact h.bump hsafe hpc htarget (ha.2 (by rw [hpc]; rfl))
  | setTarget m => exact h.setTarget hsafe hpc
  | endFlag target | tailLo target | tailHi target | unlock target =>
    rw [hpc] at htarget
    exact h.stay hsafe (.inl (hown (by rw [hpc]; rfl))) rfl rfl (fun _ _ => rfl) htarget
  | pollWait target =>
    rw [hpc] at htarget
    exact h.lock hsafe htarget
  | poll target =>
    rw [hpc] at htarget
    dsimp only
    split
    · exact h.stay hsafe (.inl (hown (by rw [hpc]; rfl))) rfl rfl (fun _ _ => rfl) trivial
    · exact h.stay hsafe (.inl (hown (by rw [hpc]; rfl))) rfl rfl (fun _ _ => rfl) htarget

omit [VmBuild] in
theorem Polls.submit {cl : Mem} (hone : One cl) : Polls (s.cpSubmitCl i cl) := by
  unfold Device.cpSubmitCl
  split
  · apply h.goto
    split <;> exact hone
  · apply h.goto
    split <;> exact hone
  · exact h

theorem Polls.batchEnd (ha : Polled s (.batchEnd i)) : Polls (s.cpBatchEnd i) := by
  have htarget := h.targets i
  unfold Device.cpBatchEnd
  split
  · rename_i hpc
    rw [hpc] at htarget
    rcases htarget with hnone | hlast
    · exact absurd hnone ha.2
    · exact h.goto hlast
  · exact h

theorem Polls.step {a : Action} {o : Unit} (hsafe : Safe base s) (ha : Polled s a)
    (hstep : step s a = some (t, o)) : Polls t := by
  cases a with
  | tick busy rsp =>
    obtain ⟨cp, _, heq⟩ := Option.map_eq_some_iff.mp hstep
    cases heq
    exact h.withCp _
  | poke addr byte =>
    cases hstep
    exact h.withCp _
  | batchBegin i =>
    cases hstep
    unfold Device.cpBatchBegin
    split
    · exact h.goto trivial
    · exact h
  | batchEnd i =>
    cases hstep
    exact h.batchEnd ha
  | submit i cl =>
    cases hstep
    exact h.submit ha.2
  | go i =>
    cases hstep
    exact h.go hsafe ha

end

end Steps

section Runs
variable [VmBuild] {satp base headAddr cmplAddr : ℕ} {mem : Mem} {as : List Action}
  {r : Device × List Unit}

/-- The test of a poll loop is true exactly when the command processor has retired the last
command that its thread appended. -/
theorem poll_exact (hbase : base + cpRingSize ≤ 2 ^ 64)
    (hC : Along step Polled (opened satp base headAddr cmplAddr mem) as)
    (hrun : run step (opened satp base headAddr cmplAddr mem) as = some r) :
    ∃ blocks cur, RetiredInOrder r.1.cp blocks cur ∧
      ∀ i target, r.1.pc i = .poll target → ∃ k x c, r.1.mine i = some k ∧
        r.1.appended[k]? = some x ∧ lineCmds x = [c] ∧
        (r.1.pollDone target = true ↔ (blocks.map Block.cmd)[k]? = some c) := by
  have hboth : Safe base r.1 ∧ Polls r.1 :=
    run_reaches (I := fun s => Safe base s ∧ Polls s)
      (fun _ _ _ _ hs ha hstep => ⟨hs.1.step hbase ha.1 hstep, hs.2.step hs.1 ha hstep⟩)
      ⟨safe_opened, ⟨by simp [opened], Nat.two_pow_pos 32, fun _ => trivial⟩⟩ hC hrun
  obtain ⟨hsafe, hpolls⟩ := hboth
  obtain ⟨blocks, cur, hist⟩ := hsafe.core.history
  have hret := hist.retiredInOrder
  refine ⟨blocks, cur, hret, ?_⟩
  intro i target hpc
  have htarget := hpolls.targets i
  rw [hpc] at htarget
  obtain ⟨k, hmine, rfl, hk⟩ := htarget
  have hx : r.1.appended[k]? = some r.1.appended[k] := getElem?_eq_getElem hk
  refine ⟨k, r.1.appended[k], slotCmd r.1.appended[k] 0, hmine, hx,
    lineCmds_one (hpolls.ones _ (getElem_mem hk)), ?_⟩
  -- the retired commands are those of the first lines appended
  have hcmds : blocks.map Block.cmd <+: r.1.appended.map (fun x => slotCmd x 0) := by
    rw [← flatMap_ones hpolls.ones]
    obtain ⟨rest, hrest⟩ := hsafe.core.taken
    refine hret.commands.trans ?_
    rw [← hrest, flatMap_append]
    exact prefix_append _ _
  have hlen := hcmds.length_le
  have hfew := hpolls.few
  simp only [length_map] at hlen
  have hseq : r.1.cp.q0.seqnum % 2 ^ 32 = blocks.length := by
    rw [hret.seqnum]
    omega
  rw [Device.pollDone, hseq, decide_eq_true_iff]
  constructor
  · intro hle
    obtain ⟨rest, hrest⟩ := hcmds
    have hget : (r.1.appended.map (fun x => slotCmd x 0))[k]? = (blocks.map Block.cmd)[k]? := by
      rw [← hrest, getElem?_append_left (by rw [length_map]; omega)]
    rw [← hget, getElem?_map, hx]
    rfl
  · intro hget
    have hlt := (List.getElem?_eq_some_iff.mp hget).1
    rwa [length_map] at hlt

end Runs

def pollTarget : Pc → Option ℕ
  | .poll target => some target
  | _ => none

theorem poll_exact_twoThreads :
    letI := noVm
    (run step (opened 0 4096 0 64 (fun _ => 0)) (twoThreads ++ [.go 0])).map
        (fun r => (pollTarget (r.1.pc 0), r.1.pollDone 1)) = some (some 1, true) ∧
    ∀ r, run step (opened 0 4096 0 64 (fun _ => 0)) (twoThreads ++ [.go 0]) = some r →
      ∃ blocks cur, RetiredInOrder r.1.cp blocks cur ∧
        ∀ i target, r.1.pc i = .poll target → ∃ k x c, r.1.mine i = some k ∧
          r.1.appended[k]? = some x ∧ lineCmds x = [c] ∧
          (r.1.pollDone target = true ↔ (blocks.map Block.cmd)[k]? = some c) :=
  ⟨by decide +kernel,
    fun _ hrun => @poll_exact noVm _ _ _ _ _ _ _ (by decide) (by decide +kernel) hrun⟩

end VortexGpu.Runtime

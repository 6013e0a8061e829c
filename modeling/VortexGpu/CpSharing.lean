import VortexGpu.CpCoreRtl

/-!
# Mutual exclusion on the shared units

As long as bids are made for idle units only, a granted command is taken by its
unit in the clock of the grant, the engine that waits for a unit is the one whose
command the unit works on, and the done pulse ends the wait of that engine alone.
-/

namespace VortexGpu.Rtl
open SharedUnit Runs List

def unitBusy : (r : Resource) → CpCmd → List BusOp → UnitState r → Prop
  | .kmu => VxLaunch.Busy
  | .dma => VxDma.Busy
  | .dcr => VxDcrProxy.Busy
  | .evt => VxEventUnit.Busy

theorem unit_serves (r : Resource) :
    Serves (unitClock r) (unitIdle r) (unitBusy r) (executes r) := by
  cases r with
  | kmu => exact VxLaunch.serves
  | dma => exact VxDma.serves
  | dcr => exact VxDcrProxy.serves
  | evt => exact VxEventUnit.serves

namespace RrArbiter
variable {a : RrArbiter} {n : ℕ} {req : ℕ → Bool}

variable {i j : ℕ}

theorem req_of_grant (h : a.grant n req i = true) : req i = true := by
  unfold grant at h
  split at h
  · simp only [masked, Bool.and_eq_true] at h
    exact h.1.1
  · simp only [Bool.and_eq_true] at h
    exact h.1

theorem priReqs_of_lt (hij : i < j) (h : req i = true) : priReqs req j = true :=
  any_eq_true.mpr ⟨i, mem_range.mpr hij, h⟩

theorem first_unique {p : ℕ → Bool} (hi : (p i && !priReqs p i) = true)
    (hj : (p j && !priReqs p j) = true) : i = j := by
  simp only [Bool.and_eq_true, Bool.not_eq_true'] at hi hj
  rcases lt_trichotomy i j with hlt | heq | hlt
  · rw [priReqs_of_lt hlt hi.1] at hj
    cases hj.2
  · exact heq
  · rw [priReqs_of_lt hlt hj.1] at hi
    cases hi.2

theorem grant_unique (hi : a.grant n req i = true) (hj : a.grant n req j = true) : i = j := by
  unfold grant at hi hj
  split at hi
  · rename_i h
    rw [if_pos h] at hj
    exact first_unique hi hj
  · rename_i h
    rw [if_neg h] at hj
    exact first_unique hi hj

end RrArbiter

theorem foldl_choose {α : Type} {p : ℕ → Bool} {f : ℕ → α} {n : ℕ} (a : Option α) :
    (range n).foldl (fun a q => if p q then some (f q) else a) a = a ∧
    (∀ q < n, p q = false) ∨
      ∃ q < n, p q = true ∧ (range n).foldl (fun a q => if p q then some (f q) else a) a =
        some (f q) := by
  induction n with
  | zero => exact .inl ⟨rfl, fun q hq => absurd hq (Nat.not_lt_zero q)⟩
  | succ n ih =>
    rw [range_succ, foldl_append]
    cases hp : p n with
    | true => exact .inr ⟨n, Nat.lt_succ_self n, hp, by simp [hp]⟩
    | false =>
      simp only [foldl_cons, foldl_nil, hp, Bool.false_eq_true, if_false]
      rcases ih with ⟨ha, hnone⟩ | ⟨q, hq, hpq, hsome⟩
      · refine .inl ⟨ha, fun q hq => ?_⟩
        rcases Nat.lt_succ_iff_lt_or_eq.mp hq with hlt | rfl
        · exact hnone q hlt
        · exact hp
      · exact .inr ⟨q, Nat.lt_succ_of_lt hq, hpq, hsome⟩

namespace CpCore
variable {n : ℕ} {s : CpCore} {i : CoreIn}

variable {r : Resource}

theorem bids_of_grant {q : ℕ} (h : s.grant n r q = true) :
    q < n ∧ (s.engines q).bids r = true := by
  have hbid := RrArbiter.req_of_grant h
  simpa [bid] using hbid

theorem grantedCmd_of_grant {q : ℕ} (h : s.grant n r q = true) :
    s.grantedCmd n r = some (s.engines q).curCmd := by
  rcases foldl_choose (f := fun q => (s.engines q).curCmd) (p := s.grant n r) (n := n) none with
    ⟨_, hnone⟩ | ⟨q', _, hq', hsome⟩
  · rw [hnone q (bids_of_grant h).1] at h
    cases h
  · rw [RrArbiter.grant_unique h hq']
    exact hsome

theorem grant_of_grantedCmd {c : CpCmd} (h : s.grantedCmd n r = some c) :
    ∃ q, s.grant n r q = true ∧ (s.engines q).curCmd = c := by
  rcases foldl_choose (f := fun q => (s.engines q).curCmd) (p := s.grant n r) (n := n) none with
    ⟨hnone, _⟩ | ⟨q, _, hq, hsome⟩
  · rw [grantedCmd, hnone] at h
    cases h
  · rw [grantedCmd, hsome] at h
    exact ⟨q, hq, Option.some.inj h⟩

theorem not_grant_of_clear (hclear : s.Clear n i)
    (hbusy : unitIdle r (s.units r).state = false) (q : ℕ) : s.grant n r q = false := by
  by_contra h
  obtain ⟨hq, hbid⟩ := bids_of_grant (Bool.not_eq_false _ ▸ h)
  rw [hclear r q hq hbid] at hbusy
  cases hbusy

end CpCore

namespace VxEngine
variable {e : VxEngine} {t : ℕ} {c : Option CpCmd} {g d : Resource → Bool} {ready : Bool}

theorem awaits_clock (r : Resource) : (e.clock t c g d ready).awaits r = true ↔
    e.awaits r = true ∧ d r = false ∨ e.bids r = true ∧ g r = true := by
  cases hf : e.fsm with
  | idle => cases c <;> simp [clock, awaits, bids, hf]
  | decode => cases hc : classify e.curCmd.opcode <;> simp [clock, awaits, bids, hf, hc]
  | bid =>
    cases hg : g e.curRes <;> simp [clock, awaits, bids, hf, hg]
    all_goals
      rintro rfl
      exact hg
  | waitDone =>
    cases hd : d e.curRes <;> simp [clock, awaits, bids, hf, hd]
    all_goals
      rintro rfl
      exact hd
  | retire => cases ready <;> simp [clock, awaits, bids, hf]

theorem curCmd_of_awaits {r : Resource} (h : e.awaits r = true) :
    (e.clock t c g d ready).curCmd = e.curCmd ∧ (e.clock t c g d ready).grantedAt =
      e.grantedAt := by
  have hf : e.fsm = .waitDone := (of_decide_eq_true h).1
  cases hd : d e.curRes <;> simp [clock, hf, hd]

theorem curCmd_of_grant {r : Resource} (h : e.bids r = true) (hg : g r = true) :
    (e.clock t c g d ready).curCmd = e.curCmd ∧ (e.clock t c g d ready).grantedAt = t := by
  obtain ⟨hf, hr⟩ := of_decide_eq_true h
  simp [clock, hf, hr, hg]

theorem mem_services_clock {v : Service} : v ∈ (e.clock t c g d ready).services ↔
    v ∈ e.services ∨ e.awaits v.res = true ∧ d v.res = true ∧
    v = ⟨e.curCmd, v.res, e.grantedAt, t⟩ := by
  cases hf : e.fsm with
  | idle => cases c <;> simp [clock, awaits, hf]
  | decode => cases hc : classify e.curCmd.opcode <;> simp [clock, awaits, hf, hc]
  | bid => cases hg : g e.curRes <;> simp [clock, awaits, hf, hg]
  | waitDone =>
    cases hd : d e.curRes with
    | false =>
      simp only [clock, awaits, hf, hd, Bool.false_eq_true, if_false, true_and, decide_eq_true_eq]
      refine ⟨Or.inl, ?_⟩
      rintro (hv | ⟨hr, hdone, _⟩)
      · exact hv
      · rw [← hr, hd] at hdone
        cases hdone
    | true =>
      simp only [clock, awaits, hf, hd, if_true, mem_append, mem_singleton, true_and,
        decide_eq_true_eq]
      refine or_congr_right ⟨?_, ?_⟩
      · rintro rfl
        exact ⟨rfl, hd, rfl⟩
      · rintro ⟨hr, _, hv⟩
        rw [hv, ← hr]
  | retire => cases ready <;> simp [clock, awaits, hf]

structure Ok (e : VxEngine) : Prop where
  res : e.fsm = .bid ∨ e.fsm = .waitDone → classify e.curCmd.opcode = some e.curRes
  kinds : ∀ v ∈ e.services, classify v.cmd.opcode = some v.res
  retired : ((e.retired ++ if e.fsm = .retire then [e.curCmd] else []).filter
    fun c => (classify c.opcode).isSome) = e.services.map Service.cmd

theorem ok_clock (h : e.Ok) : (e.clock t c g d ready).Ok := by
  obtain ⟨hres, hkinds, hretired⟩ := h
  cases hf : e.fsm with
  | idle =>
    cases c with
    | none | some c =>
      exact ⟨by simp [clock, hf], by simpa [clock, hf] using hkinds, by simpa [clock, hf]
        using hretired⟩
  | decode =>
    simp only [hf, reduceCtorEq, if_false, append_nil] at hretired
    cases hc : classify e.curCmd.opcode with
    | none =>
      refine ⟨by simp [clock, hf, hc], by simpa [clock, hf, hc] using hkinds, ?_⟩
      simp [clock, hf, hc, filter_append, hretired]
    | some r =>
      exact ⟨by simp [clock, hf, hc], by simpa [clock, hf, hc] using hkinds,
        by simpa [clock, hf, hc] using hretired⟩
  | bid =>
    have hr := hres (.inl hf)
    cases hg : g e.curRes with
    | false | true => exact ⟨by simp [clock, hf, hg, hr], by simpa [clock, hf, hg] using hkinds,
        by simpa [clock, hf, hg] using hretired⟩
  | waitDone =>
    simp only [hf, reduceCtorEq, if_false, append_nil] at hretired
    have hr := hres (.inr hf)
    cases hd : d e.curRes with
    | false => exact ⟨by simp [clock, hf, hd, hr], by simpa [clock, hf, hd] using hkinds,
        by simpa [clock, hf, hd] using hretired⟩
    | true =>
      refine ⟨by simp [clock, hf, hd], ?_, ?_⟩
      · simp only [clock, hf, hd, if_true]
        exact forall_mem_append.mpr ⟨hkinds, forall_mem_singleton.mpr hr⟩
      · simp [clock, hf, hd, filter_append, hretired, hr]
  | retire =>
    cases ready with
    | false | true =>
      exact ⟨by simp [clock, hf], by simpa [clock, hf] using hkinds, by simpa [clock, hf]
        using hretired⟩

end VxEngine

open VxEngine

namespace CpCore
variable {n : ℕ} {s : CpCore} {i : CoreIn}

structure Inv (n : ℕ) (s : CpCore) : Prop extends Paired n s where
  engines : ∀ q < n, (s.engines q).Ok
  units : ∀ r, (s.units r).Ok (unitIdle r) (unitBusy r) (executes r) s.time
  unique : ∀ q < n, ∀ q' < n, ∀ r, (s.engines q).awaits r = true →
    (s.engines q').awaits r = true → q = q'
  owner : ∀ r j, (s.units r).current = some j → ∃ q < n, (s.engines q).awaits r = true
  logged : ∀ q < n, ∀ v ∈ (s.engines q).services, ∃ ops,
    (⟨v.cmd, v.granted, ops, v.done⟩ : Job CpCmd BusOp) ∈ (s.units v.res).log

theorem inv_reset (n : ℕ) : Inv n reset where
  engines q _ := ⟨by simp [reset, VxEngine.reset], by simp [reset, VxEngine.reset], by
    simp [reset, VxEngine.reset]⟩
  units r := ⟨fun _ => by cases r <;> rfl, fun j hj => (by cases hj),
    fun x hx => (by cases hx), .nil⟩
  waiting q _ r h := by simp [reset, VxEngine.reset, VxEngine.awaits] at h
  unique q _ q' _ r h := by simp [reset, VxEngine.reset, VxEngine.awaits] at h
  owner r j h := by cases h
  logged q _ v h := by cases h
  alone q _ q' _ v h := by cases h
  owned r x h := by cases h

theorem Inv.served (h : Inv n s) : Served n s where
  toPaired := h.toPaired
  retired q hq := by
    have hretired := (h.engines q hq).retired
    rw [filter_append] at hretired
    exact ⟨_, hretired⟩
  executed q hq v hv := by
    obtain ⟨ops, hx⟩ := h.logged q hq v hv
    have hdone := (h.units v.res).done _ hx
    refine ⟨(h.engines q hq).kinds v hv, ops, hdone.1, ?_⟩
    exact filter_within (fun x hx => ((h.units v.res).done x hx).2.1) (h.units v.res).apart hx

theorem engine_clock {q : ℕ} (hq : q < n) : (s.clock n i).engines q =
    (s.engines q).clock s.time (i.cmdIn q) (fun r => s.grant n r q) (s.done n i)
      (i.retireReady q) :=
  if_pos hq

theorem awaits_clock {q : ℕ} (hq : q < n) (r : Resource) :
    ((s.clock n i).engines q).awaits r = true ↔
    (s.engines q).awaits r = true ∧ s.done n i r = false ∨ s.grant n r q = true := by
  rw [engine_clock hq, VxEngine.awaits_clock]
  refine or_congr_right ⟨And.right, fun hg => ⟨(bids_of_grant hg).2, hg⟩⟩

section Step
variable (h : Inv n s) (hclear : s.Clear n i)
include h

theorem unit_cases (r : Resource) : (s.units r).current = none ∧ s.done n i r = false ∧
        ((s.clock n i).units r).current = (s.grantedCmd n r).map (⟨·, s.time, []⟩) ∧
        ((s.clock n i).units r).log = (s.units r).log ∨
    ∃ j ops, (s.units r).current = some j ∧
      (s.done n i r = false ∧ ((s.clock n i).units r).current = some ⟨j.cmd, j.began, ops⟩ ∧
          ((s.clock n i).units r).log = (s.units r).log ∨
        s.done n i r = true ∧ ((s.clock n i).units r).current = none ∧
          ((s.clock n i).units r).log = (s.units r).log ++ [⟨j.cmd, j.began, ops, s.time⟩]) :=
  Tracked.next_cases (unit_serves r) (h.units r) (s.grantedCmd n r) i.pins

variable {r : Resource} {q : ℕ}

theorem mem_log_clock {x : Job CpCmd BusOp} (hx : x ∈ (s.units r).log) :
    x ∈ ((s.clock n i).units r).log := by
  rcases unit_cases h r (i := i) with ⟨_, _, _, hlog⟩ |
    ⟨j, ops, _, ⟨_, _, hlog⟩ | ⟨_, _, hlog⟩⟩
  · rwa [hlog]
  · rwa [hlog]
  · rw [hlog]
    exact mem_append_left _ hx

theorem logs_of_done (hq : q < n) (hw : (s.engines q).awaits r = true)
    (hd : s.done n i r = true) : ∃ ops, ((s.clock n i).units r).log =
      (s.units r).log ++ [⟨(s.engines q).curCmd, (s.engines q).grantedAt, ops, s.time⟩] := by
  obtain ⟨ops₀, hcur⟩ := h.waiting q hq r hw
  rcases unit_cases h r (i := i) with ⟨hnone, _⟩ |
    ⟨j, ops, hj, ⟨hnot, _⟩ | ⟨_, _, hlog⟩⟩
  · rw [hnone] at hcur
    cases hcur
  · rw [hnot] at hd
    cases hd
  · rw [hj] at hcur
    cases hcur
    exact ⟨ops, hlog⟩

theorem owner_clock {j : Running CpCmd BusOp} (hj : ((s.clock n i).units r).current = some j) :
    ∃ q < n, ((s.clock n i).engines q).awaits r = true := by
  rcases unit_cases h r (i := i) with ⟨_, _, hnext, _⟩ |
    ⟨j', ops, hj', ⟨hnot, _⟩ | ⟨_, hnext, _⟩⟩
  · rw [hnext] at hj
    obtain ⟨c, hc, _⟩ := Option.map_eq_some_iff.mp hj
    obtain ⟨q, hg, _⟩ := grant_of_grantedCmd hc
    have hq := (bids_of_grant hg).1
    exact ⟨q, hq, (awaits_clock hq r).mpr (.inr hg)⟩
  · obtain ⟨q, hq, hw⟩ := h.owner r j' hj'
    exact ⟨q, hq, (awaits_clock hq r).mpr (.inl ⟨hw, hnot⟩)⟩
  · rw [hnext] at hj
    cases hj

include hclear

theorem current_of_grant (hg : s.grant n r q = true) : (s.units r).current = none := by
  cases hc : (s.units r).current with
  | none => rfl
  | some j =>
    have hbusy := (unit_serves r).busy _ _ _ ((h.units r).busy j hc).1
    rw [not_grant_of_clear hclear hbusy q] at hg
    cases hg

theorem waits_clock (hq : q < n) (hw : ((s.clock n i).engines q).awaits r = true) :
    ∃ ops, ((s.clock n i).units r).current =
      some ⟨((s.clock n i).engines q).curCmd, ((s.clock n i).engines q).grantedAt, ops⟩ := by
  rcases (awaits_clock hq r).mp hw with ⟨hold, hnot⟩ | hg
  · obtain ⟨ops₀, hcur⟩ := h.waiting q hq r hold
    rw [engine_clock hq, (curCmd_of_awaits hold).1, (curCmd_of_awaits hold).2]
    rcases unit_cases h r (i := i) with ⟨hnone, _⟩ |
      ⟨j, ops, hj, ⟨_, hnext, _⟩ | ⟨hd, _⟩⟩
    · rw [hnone] at hcur
      cases hcur
    · rw [hj] at hcur
      cases hcur
      exact ⟨ops, hnext⟩
    · rw [hd] at hnot
      cases hnot
  · have hbid := (bids_of_grant hg).2
    have hnone := current_of_grant h hclear hg
    rw [engine_clock hq, (curCmd_of_grant hbid hg).1, (curCmd_of_grant hbid hg).2]
    rcases unit_cases h r (i := i) with ⟨_, _, hnext, _⟩ | ⟨j, ops, hj, _⟩
    · rw [grantedCmd_of_grant hg] at hnext
      exact ⟨[], hnext⟩
    · rw [hnone] at hj
      cases hj

theorem unique_clock {q' : ℕ} (hq : q < n) (hq' : q' < n)
    (hw : ((s.clock n i).engines q).awaits r = true)
    (hw' : ((s.clock n i).engines q').awaits r = true) : q = q' := by
  -- an engine that waited before holds the unit, so that nobody is granted it
  have hnone : ∀ {q q'}, q < n → (s.engines q).awaits r = true → s.grant n r q' = true →
      False := by
    intro q q' hq hw hg
    obtain ⟨ops, hcur⟩ := h.waiting q hq r hw
    rw [current_of_grant h hclear hg] at hcur
    cases hcur
  rcases (awaits_clock hq r).mp hw with ⟨hold, _⟩ | hg <;>
    rcases (awaits_clock hq' r).mp hw' with ⟨hold', _⟩ | hg'
  · exact h.unique q hq q' hq' r hold hold'
  · exact (hnone hq hold hg').elim
  · exact (hnone hq' hold' hg).elim
  · exact RrArbiter.grant_unique hg hg'

theorem inv_clock : Inv n (s.clock n i) where
  engines q hq := by
    rw [engine_clock hq]
    exact ok_clock (h.engines q hq)
  units r := Tracked.ok_next (unit_serves r) (h.units r) (s.grantedCmd n r) i.pins
  waiting q hq r hw := waits_clock h hclear hq hw
  unique q hq q' hq' r hw hw' := unique_clock h hclear hq hq' hw hw'
  owner r j hj := owner_clock h hj
  logged q hq v hv := by
    rw [engine_clock hq, mem_services_clock] at hv
    rcases hv with hold | ⟨hw, hd, hv⟩
    · obtain ⟨ops, hx⟩ := h.logged q hq v hold
      exact ⟨ops, mem_log_clock h hx⟩
    · obtain ⟨ops, hlog⟩ := logs_of_done h hq hw hd
      refine ⟨ops, ?_⟩
      rw [hlog, hv]
      exact mem_append_right _ mem_cons_self
  alone q hq q' hq' v hv v' hv' hres hdone := by
    have hpast : ∀ q < n, ∀ v ∈ (s.engines q).services, v.done < s.time := fun q hq v hv => by
      obtain ⟨ops, hx⟩ := h.logged q hq v hv
      exact ((h.units v.res).done _ hx).2.2
    rw [engine_clock hq, mem_services_clock] at hv
    rw [engine_clock hq', mem_services_clock] at hv'
    rcases hv with hold | ⟨hw, _, hv⟩ <;> rcases hv' with hold' | ⟨hw', _, hv'⟩
    · exact h.alone q hq q' hq' v hold v' hold' hres hdone
    · have hlt := hpast q hq v hold
      rw [hdone, hv'] at hlt
      exact absurd hlt (lt_irrefl _)
    · have hlt := hpast q' hq' v' hold'
      rw [← hdone, hv] at hlt
      exact absurd hlt (lt_irrefl _)
    · rw [← hres] at hw'
      exact h.unique q hq q' hq' v.res hw hw'
  owned r x hx := by
    have hkept : x ∈ (s.units r).log → ∃ q < n,
        (⟨x.cmd, r, x.began, x.ended⟩ : Service) ∈ ((s.clock n i).engines q).services :=
          fun hx => by
      obtain ⟨q, hq, hv⟩ := h.owned r x hx
      refine ⟨q, hq, ?_⟩
      rw [engine_clock hq, mem_services_clock]
      exact .inl hv
    rcases unit_cases h r (i := i) with ⟨_, _, _, hlog⟩ |
      ⟨j, ops, hj, ⟨_, _, hlog⟩ | ⟨hd, _, hlog⟩⟩
    · exact hkept (hlog ▸ hx)
    · exact hkept (hlog ▸ hx)
    · rw [hlog] at hx
      rcases mem_append.mp hx with hx | hx
      · exact hkept hx
      obtain ⟨q, hq, hw⟩ := h.owner r j hj
      obtain ⟨ops₀, hcur⟩ := h.waiting q hq r hw
      rw [hj] at hcur
      cases hcur
      refine ⟨q, hq, ?_⟩
      rw [mem_singleton.mp hx, engine_clock hq, mem_services_clock]
      exact .inr ⟨hw, hd, rfl⟩

end Step

/-- Over every run in which bids are made for idle units only, for any number of queues. -/
theorem commands_served {n : ℕ} {t : CpCore} {is : List CoreIn} {out : List Unit}
    (hrun : run (step n) reset is = some (t, out)) (hclear : Along (step n) (Clear n) reset is) :
    Served n t := by
  refine Inv.served (run_reaches (fun s i s' o hs hi hstep => ?_) (inv_reset n) hclear hrun)
  cases hstep
  exact inv_clock hs hi

def launchCmd : CpCmd := ⟨6, 0, 0, 0, 0, 0, 0⟩

/-- A clock in which the queues below `k` are offered a launch, and the GPU is busy or not. -/
def launchIn (k : ℕ) (busy : Bool) : CoreIn where
  cmdIn q := if q < k then some launchCmd else none
  retireReady _ := true
  pins := ⟨busy, false, 0, fun _ => ⟨false, false, 0, false, false, false⟩⟩

def launchClocks (k : ℕ) : List CoreIn :=
  replicate 5 (launchIn k false) ++ [launchIn k true, launchIn k false, launchIn k false]

/-- Two queues launch a kernel at the same time. The second is granted the unit while it works for
the first, and is retired with it, without a kernel of its own. -/
theorem launch_dropped : ∃ t out, run (step 2) reset (launchClocks 2) = some (t, out) ∧
    (t.engines 0).retired = [launchCmd] ∧ (t.engines 1).retired = [launchCmd] ∧
    ((t.units .kmu).log.map fun x => (x.began, x.ops, x.ended)) =
      [(2, [.start, .busy, .drained], 6)] ∧ ¬ Served 2 t := by
  refine ⟨_, _, rfl, by decide +kernel, by decide +kernel, by decide +kernel, fun h => ?_⟩
  have hsame := h.alone 0 (by decide) 1 (by decide) ⟨launchCmd, .kmu, 2, 6⟩ (by decide +kernel)
    ⟨launchCmd, .kmu, 3, 6⟩ (by decide +kernel) rfl rfl
  exact absurd hsame (by decide)

theorem commands_served_launch : ∃ t out, run (step 2) reset (launchClocks 1) = some (t, out) ∧
    (t.engines 0).retired = [launchCmd] ∧ Served 2 t :=
  ⟨_, _, rfl, by decide +kernel,
    @commands_served 2 _ (launchClocks 1) _ rfl (by decide +kernel)⟩

theorem clear_of_single (h : Inv 1 s) : s.Clear 1 i := by
  intro r q hq hbid
  cases hc : (s.units r).current with
  | none => exact (h.units r).rest hc
  | some j =>
    obtain ⟨q', hq', hw⟩ := h.owner r j hc
    rw [Nat.lt_one_iff.mp hq'] at hw
    rw [Nat.lt_one_iff.mp hq] at hbid
    have hfsm := (of_decide_eq_true hw).1
    rw [(of_decide_eq_true hbid).1] at hfsm
    cases hfsm

theorem single_queue_served {t : CpCore} {is : List CoreIn} {out : List Unit}
    (hrun : run (step 1) reset is = some (t, out)) : Served 1 t := by
  refine Inv.served (run_reaches (C := fun _ _ => True) (fun s i s' o hs _ hstep =>
    ?_) (inv_reset 1)
    (.of_forall fun _ _ => trivial) hrun)
  cases hstep
  exact inv_clock hs (clear_of_single hs)

theorem single_queue_served_launch :
    ∃ t out, run (step 1) reset (launchClocks 1) = some (t, out) ∧
    (t.engines 0).retired = [launchCmd] ∧ Served 1 t :=
  ⟨_, _, rfl, by decide +kernel, @single_queue_served _ (launchClocks 1) _ rfl⟩

end CpCore

end VortexGpu.Rtl

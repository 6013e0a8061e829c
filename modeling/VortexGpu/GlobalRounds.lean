import VortexGpu.GlobalBarrier
import Mathlib.Data.Nat.ModEq

/-!
# Rounds of a global barrier

The active warps of some cores meet at a global barrier: each one arrives and goes on when all have
arrived, with one instruction or with two. `GlobalRounds` counts beside the processor how often each
warp has arrived at each barrier and has passed it, and how often the phase of each core has moved.
-/

namespace VortexGpu.Simx
open Word Runs WarpBarrier BarrierProcessor Finset Function

inductive GlobalInstr where
  | sync | arrive | wait
deriving DecidableEq

structure GlobalAction where
  instr : GlobalInstr
  core : ℕ
  wid : ℕ
  arg1 : ℕ
deriving DecidableEq

/-- The warp of the instruction does not go on at once. -/
abbrev GlobalAction.Stops (a : GlobalAction) (release : Bool) : Prop :=
  a.instr = .sync ∨ (a.instr = .wait ∧ release = false)

/-- The functions take the core, the warp and the barrier. `token` is the value of a `BAR.ARRIVE`
that has not been waited for, and `waiting` the barrier at which a warp stands. -/
structure GlobalRounds where
  proc : BarrierProcessor
  arrivals : ℕ → ℕ → ℕ → ℕ
  passed : ℕ → ℕ → ℕ → ℕ
  token : ℕ → ℕ → ℕ → Option ℕ
  waiting : ℕ → ℕ → Option ℕ
  advanced : ℕ → ℕ → ℕ

/-- The processor, the cores that take part at each barrier, and the warps of each core that do. -/
class Meeting extends BarrierProcessorConfig where
  participants : ℕ → Finset ℕ
  activeWarps : ℕ → WarpMask

namespace GlobalRounds

def reset : GlobalRounds :=
  ⟨.reset, fun _ _ _ => 0, fun _ _ _ => 0, fun _ _ _ => none, fun _ _ => none, fun _ _ => 0⟩

/-- How often a warp has arrived and passed when `R` rounds are over, the token it holds, and
whether it stands at the barrier. -/
inductive Status : ℕ → ℕ → ℕ → Option ℕ → Bool → Prop
  | idle {R} : Status R R R none false
  | waits {R} : Status R (R + 1) R none true
  | holds {R} : Status R (R + 1) R (some (R % 2)) false
  | done {R} : Status (R + 1) (R + 1) R (some (R % 2)) false

section
variable {R A P : ℕ} {b : Bool} {t : Option ℕ}

theorem Status.held {v : ℕ} (h : Status R A P (some v) b) :
    (A = R + 1 ∧ P = R ∧ v = R % 2) ∨ (A = R ∧ P + 1 = R ∧ v = P % 2) := by
  cases h with
  | holds => exact .inl ⟨rfl, rfl, rfl⟩
  | done => exact .inr ⟨rfl, rfl, rfl⟩

theorem Status.free (h : Status R A P none false) : A = R ∧ P = R := by
  cases h
  exact ⟨rfl, rfl⟩

theorem Status.arrivals (h : Status R A P t b) : A = R ∨ A = R + 1 := by
  cases h with
  | idle | done => exact .inl rfl
  | waits | holds => exact .inr rfl

theorem Status.passed (h : Status R A P t b) : P ≤ R := by
  cases h with
  | done => exact Nat.le_succ _
  | _ => exact le_rfl

theorem Status.waiting (h : Status R A P t true) : A = R + 1 := by
  cases h
  rfl

theorem Status.next (h : Status R (R + 1) P t b) :
    Status (R + 1) (R + 1) (if b then P + 1 else P) t false := by
  cases h with
  | waits => exact .idle
  | holds => exact .done

end

abbrev barrier (s : GlobalRounds) (c g : ℕ) : WarpBarrier := (s.proc.cores c).barriers g

section
variable {s : GlobalRounds} {woken : ℕ → WarpMask} {g : ℕ}

theorem field_update {α : Type} (f : WarpBarrier → α) {b : WarpBarrier} {core i : ℕ}
    (hb : f b = f (s.barrier core g)) :
    f (if i = core then b else s.barrier i g) = f (s.barrier i g) := by
  split_ifs with hi
  · rw [hi, hb]
  · rfl

theorem waitMask_update {b : WarpBarrier} {core : ℕ}
    (hb : b = { s.barrier core g with waitMask := b.waitMask }) :
    (fun i => if i = core then b else s.barrier i g) = fun i => { s.barrier i g with
      waitMask := if i = core then b.waitMask else (s.barrier i g).waitMask } := by
  funext i
  split_ifs with hi
  · rw [hi, ← hb]
  · rfl

theorem nobody_woken {P : ℕ → ℕ → Prop} (hwoken : ∀ i, woken i = ∅) :
    ∀ c, ∀ w ∈ woken c, P c w := by
  intro c w hw
  rw [hwoken] at hw
  exact absurd hw (notMem_empty w)

end

section Rounds
open BarrierConfig BarrierProcessorConfig Meeting
variable [Meeting]

def bar (a : GlobalAction) : ℕ := BarrierUnit.index (barDecodeId a.arg1 numBarriers)

section
variable (s : GlobalRounds) (a : GlobalAction)

def trace : BarTrace :=
  match a.instr with
  | .sync => arrival true a.wid a.arg1 (participants (bar a)).card
  | .arrive => arrival false a.wid a.arg1 (participants (bar a)).card
  | .wait => ⟨.barWait, a.wid, a.arg1, (s.token a.core a.wid (bar a)).getD 0⟩

def stopped (release : Bool) (c w : ℕ) : Option ℕ :=
  if (c = a.core ∧ w = a.wid) ∧ a.Stops release then some (bar a)
  else s.waiting c w

def after (p : BarrierProcessor) (dst : Option ℕ) (release : Bool)
    (woken : ℕ → WarpMask) : GlobalRounds where
  proc := p
  arrivals := fun c w g =>
    if (c = a.core ∧ w = a.wid ∧ g = bar a) ∧ a.instr ≠ .wait then s.arrivals c w g + 1
      else s.arrivals c w g
  passed := fun c w g =>
    if ((c = a.core ∧ w = a.wid ∧ g = bar a) ∧ a.instr = .wait ∧ release = true) ∨
      (w ∈ woken c ∧ s.stopped a release c w = some g) then s.passed c w g + 1
      else s.passed c w g
  token := fun c w g => if c = a.core ∧ w = a.wid ∧ g = bar a then dst else s.token c w g
  waiting := fun c w => if w ∈ woken c then none else s.stopped a release c w
  advanced := fun c g =>
    if ((p.cores c).barriers g).phase ≠ ((s.proc.cores c).barriers g).phase then
      s.advanced c g + 1
    else s.advanced c g

def step : Option (GlobalRounds × Unit) := do
  let (p, dst, release, woken) ← s.proc.processBar activeWarps a.core (s.trace a)
  some (s.after a p dst release woken, ())

/-- A running warp that takes part arrives when it has passed the barrier as often as it has
arrived, and waits with the token of its last arrival. -/
def Lawful : Prop :=
  barDecodeId a.arg1 numBarriers = 2 ^ 31 + bar a ∧ bar a < numBarriers ∧
  a.core ∈ participants (bar a) ∧ a.wid ∈ activeWarps a.core ∧
  s.waiting a.core a.wid = none ∧
  (s.token a.core a.wid (bar a) = none ↔ a.instr ≠ .wait)

/-- The phase of the core is one of the first two when a warp waits for a round that is open. -/
def Comparable : Prop :=
  a.instr = .wait → s.advanced a.core (bar a) < s.arrivals a.core a.wid (bar a) →
    ((s.proc.cores a.core).barriers (bar a)).phase < 2

end

instance (s : GlobalRounds) (a : GlobalAction) : Decidable (s.Lawful a) :=
  inferInstanceAs (Decidable (_ ∧ _))

instance (s : GlobalRounds) (a : GlobalAction) : Decidable (s.Comparable a) :=
  inferInstanceAs (Decidable (_ → _ → _))

def slot (g : ℕ) : ℕ := (2 ^ 31 + g) % numBarriers

/-- The barrier of an instruction on its own core, and the cores that the processor has collected
for it. -/
abbrev here (s : GlobalRounds) (a : GlobalAction) : WarpBarrier := s.barrier a.core (bar a)

abbrev told (s : GlobalRounds) (a : GlobalAction) : Finset ℕ := s.proc.gbarriers (slot (bar a))

/-- All warps of the core have arrived, and all cores that take part have told the processor. -/
abbrev Gathered (s : GlobalRounds) (a : GlobalAction) : Prop :=
  (insert a.wid (s.here a).arrivalMask).card = (activeWarps a.core).card

abbrev Complete (s : GlobalRounds) (a : GlobalAction) : Prop :=
  (insert a.core (s.told a)).card = (participants (bar a)).card

abbrev joins (s : GlobalRounds) (a : GlobalAction) (count : ℕ) : WarpBarrier :=
  joined (s.here a) count a.wid (decide (a.instr = .sync))

/-- The warps of the cores that take part when `R` rounds of barrier `g` are over. -/
structure WarpsInv (s : GlobalRounds) (R g : ℕ) : Prop where
  phase : ∀ c ∈ participants g, (s.barrier c g).phase = R % 2 ^ 32
  advanced : ∀ c ∈ participants g, s.advanced c g = R
  events : ∀ c ∈ participants g, (s.barrier c g).events = 0
  waitMask : ∀ c ∈ participants g,
    (s.barrier c g).waitMask = (activeWarps c).filter fun w => s.waiting c w = some g
  status : ∀ c ∈ participants g, ∀ w ∈ activeWarps c,
    Status R (s.arrivals c w g) (s.passed c w g) (s.token c w g) (decide (s.waiting c w = some g))

/-- The cores that have told the processor, and those that still gather arrivals. -/
structure CoresInv (s : GlobalRounds) (R g : ℕ) : Prop where
  gathered : ∀ c ∈ s.proc.gbarriers (slot g), (s.barrier c g).arrivalMask = ∅ ∧
    ∀ w ∈ activeWarps c, s.arrivals c w g = R + 1
  gathering : ∀ c ∈ participants g, c ∉ s.proc.gbarriers (slot g) →
    (s.barrier c g).arrivalMask = ((activeWarps c).filter fun w => s.arrivals c w g = R + 1) ∧
      ∃ w ∈ activeWarps c, s.arrivals c w g = R
  cores : s.proc.gbarriers (slot g) ⊆ participants g
  missing : (participants g).Nonempty → ∃ c ∈ participants g, c ∉ s.proc.gbarriers (slot g)

structure BarInv (s : GlobalRounds) (R g : ℕ) : Prop extends
  s.WarpsInv R g, s.CoresInv R g

variable {s : GlobalRounds} {a : GlobalAction} {p : BarrierProcessor}
  {dst : Option ℕ} {release : Bool} {woken : ℕ → WarpMask} {next : ℕ → WarpBarrier}
  {R g c w : ℕ}

theorem CoresInv.congr {t : GlobalRounds} (h : s.CoresInv R g)
    (hmask : ∀ c, (t.barrier c g).arrivalMask = (s.barrier c g).arrivalMask)
    (harrivals : ∀ c w, t.arrivals c w g = s.arrivals c w g)
    (hgbarriers : t.proc.gbarriers (slot g) = s.proc.gbarriers (slot g)) : t.CoresInv R g where
  gathered := by simpa only [hgbarriers, hmask, harrivals] using h.gathered
  gathering := by simpa only [hgbarriers, hmask, harrivals] using h.gathering
  cores := hgbarriers ▸ h.cores
  missing := by simpa only [hgbarriers] using h.missing

section Frame
variable (hne : g ≠ bar a) (hfree : s.waiting a.core a.wid = none)
  (hwoken : ∀ c, ∀ w ∈ woken c, s.stopped a release c w = some (bar a))

include hne hfree in
theorem stopped_frame (release : Bool) : s.stopped a release c w = some g ↔
    s.waiting c w = some g := by
  unfold stopped
  split_ifs with hstop
  · obtain ⟨⟨rfl, rfl⟩, -⟩ := hstop
    simp [hfree, hne.symm]
  · rfl

include hne hfree hwoken in
theorem after_waiting_frame :
    (s.after a p dst release woken).waiting c w = some g ↔ s.waiting c w = some g := by
  rw [← stopped_frame hne hfree release]
  simp only [after]
  split_ifs with hmem
  · simp [hwoken c w hmem, hne.symm]
  · rfl

include hne in
theorem after_arrivals_frame :
    (s.after a p dst release woken).arrivals c w g = s.arrivals c w g := by
  simp [after, hne]

include hne in
theorem after_token_frame : (s.after a p dst release woken).token c w g = s.token c w g := by
  simp [after, hne]

include hne hwoken in
theorem after_passed_frame : (s.after a p dst release woken).passed c w g = s.passed c w g := by
  have hnot : ¬(w ∈ woken c ∧ s.stopped a release c w = some g) := by
    rintro ⟨hmem, hstop⟩
    rw [hwoken c w hmem] at hstop
    exact hne (Option.some.inj hstop).symm
  simp [after, hne, hnot]

include hne hfree hwoken in
theorem BarInv.frame (h : s.BarInv R g) (hmoves : s.proc.Moves p (bar a) next)
    (hgbarriers : p.gbarriers (slot g) = s.proc.gbarriers (slot g)) :
    (s.after a p dst release woken).BarInv R g := by
  have hsame (c : ℕ) : (p.cores c).barriers g = s.barrier c g := hmoves.others c g hne
  have hwaiting {c w : ℕ} : (s.after a p dst release woken).waiting c w = some g ↔
      s.waiting c w = some g :=
    after_waiting_frame hne hfree hwoken
  refine ⟨⟨?_, ?_, ?_, ?_, ?_⟩, h.toCoresInv.congr (fun c => congrArg arrivalMask (hsame c))
    (fun _ _ => after_arrivals_frame hne) hgbarriers⟩
  · intro c hc
    exact (congrArg phase (hsame c)).trans (h.phase c hc)
  · intro c hc
    simp only [after, hsame, ne_eq, not_true_eq_false, if_false]
    exact h.advanced c hc
  · intro c hc
    exact (congrArg events (hsame c)).trans (h.events c hc)
  · intro c hc
    simp only [hwaiting]
    exact (congrArg waitMask (hsame c)).trans (h.waitMask c hc)
  · intro c hc w hw
    simp only [hwaiting, after_arrivals_frame hne, after_token_frame hne,
      after_passed_frame hne hwoken]
    exact h.status c hc w hw

end Frame

theorem stopped_here (hstops : a.Stops release) :
    s.stopped a release a.core a.wid = some (bar a) := if_pos ⟨⟨rfl, rfl⟩, hstops⟩

theorem stopped_elsewhere (hne : ¬(c = a.core ∧ w = a.wid)) :
    s.stopped a release c w = s.waiting c w :=
  if_neg fun hc => hne hc.1

theorem stopped_none (hstops : ¬a.Stops release) :
    s.stopped a release c w = s.waiting c w := if_neg fun hc => hstops hc.2

theorem filter_stopped (hstops : a.Stops release) (hwid : a.wid ∈ activeWarps a.core) (c : ℕ) :
    ((activeWarps c).filter fun w => s.stopped a release c w = some (bar a)) =
      if c = a.core then insert a.wid ((activeWarps c).filter fun w => s.waiting c w = some (bar a))
      else (activeWarps c).filter fun w => s.waiting c w = some (bar a) := by
  ext w
  by_cases hc : c = a.core
  · subst hc
    rw [if_pos rfl, mem_insert, mem_filter, mem_filter]
    by_cases hw : w = a.wid
    · subst hw
      simp [stopped_here hstops, hwid]
    · simp [stopped_elsewhere (fun h => hw h.2), hw]
  · simp [hc, stopped_elsewhere (fun h => hc h.1)]

section Wait
variable (h : s.BarInv R (bar a)) (hinstr : a.instr = .wait)
include h hinstr

theorem BarInv.wait (hgbarriers : p.gbarriers = s.proc.gbarriers) (hwoken : ∀ i, woken i = ∅)
    {masks : ℕ → WarpMask}
    (hmoves : s.proc.Moves p (bar a) fun i => { s.barrier i (bar a) with waitMask := masks i })
    (hmasks : ∀ c ∈ participants (bar a), masks c = (activeWarps c).filter fun w =>
      s.stopped a release c w = some (bar a))
    (hstatus : Status R (s.arrivals a.core a.wid (bar a))
      (if release then s.passed a.core a.wid (bar a) + 1 else s.passed a.core a.wid (bar a)) none
      (decide (s.stopped a release a.core a.wid = some (bar a)))) :
    (s.after a p none release woken).BarInv R (bar a) := by
  have harrivals (c w : ℕ) : (s.after a p none release woken).arrivals c w (bar a) =
      s.arrivals c w (bar a) := by
    simp [after, hinstr]
  have hwaiting (c w : ℕ) : (s.after a p none release woken).waiting c w =
      s.stopped a release c w := by
    simp [after, hwoken]
  refine ⟨⟨?_, ?_, ?_, ?_, ?_⟩, h.toCoresInv.congr
    (fun c => (congrArg arrivalMask (hmoves.barrier c)).trans rfl) harrivals
    (congrFun hgbarriers _)⟩
  · intro c hc
    exact (congrArg phase (hmoves.barrier c)).trans (h.phase c hc)
  · intro c hc
    simp only [after, hmoves.barrier, ne_eq, not_true_eq_false, if_false]
    exact h.advanced c hc
  · intro c hc
    exact (congrArg events (hmoves.barrier c)).trans (h.events c hc)
  · intro c hc
    simp only [hwaiting]
    exact (congrArg waitMask (hmoves.barrier c)).trans (hmasks c hc)
  · intro c hc w hw
    simp only [harrivals, hwaiting]
    by_cases hhere : c = a.core ∧ w = a.wid
    · obtain ⟨rfl, rfl⟩ := hhere
      simpa [after, hinstr, hwoken] using hstatus
    have hold := h.status c hc w hw
    have hstop : s.stopped a release c w = s.waiting c w := if_neg fun hc => hhere hc.1
    have htoken : (s.after a p none release woken).token c w (bar a) = s.token c w (bar a) :=
      if_neg fun hc => hhere ⟨hc.1, hc.2.1⟩
    have hpassed : (s.after a p none release woken).passed c w (bar a) = s.passed c w (bar a) := by
      refine if_neg ?_
      rintro (hc | ⟨hmem, -⟩)
      · exact hhere ⟨hc.1.1, hc.1.2.1⟩
      · rw [hwoken] at hmem
        exact absurd hmem (notMem_empty w)
    rw [hstop, htoken, hpassed]
    exact hold

theorem BarInv.wait_step (hid : GlobalId (barDecodeId a.arg1 numBarriers) (bar a))
    (hcore : a.core ∈ participants (bar a)) (hwid : a.wid ∈ activeWarps a.core)
    (hfree : s.waiting a.core a.wid = none) (htoken : s.token a.core a.wid (bar a) ≠ none)
    (hcomp : s.Comparable a) :
    ∃ p dst release woken, s.proc.processBar activeWarps a.core (s.trace a) =
        some (p, dst, release, woken) ∧
      (s.after a p dst release woken).BarInv R (bar a) ∧
      (∃ next, s.proc.Moves p (bar a) next) ∧ p.gbarriers = s.proc.gbarriers ∧ ∀ i,
        woken i = ∅ := by
  obtain ⟨v, hv⟩ := Option.ne_none_iff_exists'.mp htoken
  have htrace : s.trace a = ⟨.barWait, a.wid, a.arg1, v⟩ := by
    simp [trace, hinstr, hv]
  have hphase : (s.here a).phase = R % 2 ^ 32 := h.phase a.core hcore
  have hadvanced := h.advanced a.core hcore
  have hstatus := h.status a.core hcore a.wid hwid
  obtain ⟨p, woken, hproc, hmoves, hgbarriers, hwoken⟩ :=
    @processBar_wait _ (bar a) s.proc activeWarps a.core a.arg1 a.wid v _ hid rfl
  rw [htrace]
  refine ⟨p, none, _, woken, hproc, ?_, ⟨_, hmoves⟩, hgbarriers, hwoken⟩
  rw [hv] at hstatus
  have hwaitMask := h.waitMask
  rcases hstatus.held with ⟨hopen, hpassed, hbit⟩ | ⟨hover, hpassed, hbit⟩
  · have hlow : (s.here a).phase < 2 := hcomp hinstr (by omega)
    have heq : (s.here a).phase = v := by omega
    have hwait : (s.here a).wait v a.wid =
        ((s.here a).park a.wid, true) := if_pos heq
    have hstops : a.Stops false := .inr ⟨hinstr, rfl⟩
    rw [hwait, waitMask_update rfl] at hmoves
    rw [hwait]
    refine h.wait hinstr hgbarriers hwoken hmoves ?_ ?_
    · intro c hc
      simp only [Bool.not_true]
      rw [filter_stopped hstops hwid c]
      split_ifs with hi
      · subst hi
        rw [← hwaitMask _ hc]
        rfl
      · exact hwaitMask c hc
    · simp only [Bool.not_true, stopped_here hstops, hopen, hpassed]
      exact .waits
  · have hne : (s.here a).phase ≠ v := by omega
    have hwait : (s.here a).wait v a.wid =
        (s.here a, false) := if_neg hne
    rw [hwait, waitMask_update rfl] at hmoves
    rw [hwait]
    have hstops : ¬a.Stops true := by simp [hinstr]
    refine h.wait hinstr hgbarriers hwoken hmoves ?_ ?_
    · intro c hc
      simp only [Bool.not_false, stopped_none hstops]
      split_ifs with hi
      · exact hi ▸ hwaitMask _ hcore
      · exact hwaitMask c hc
    · simp only [Bool.not_false, stopped_none hstops, hfree, hover, if_true, hpassed]
      exact .idle

end Wait

structure Arrives (s : GlobalRounds) (a : GlobalAction) : Prop where
  instr : a.instr ≠ .wait
  core : a.core ∈ participants (bar a)
  wid : a.wid ∈ activeWarps a.core
  free : s.waiting a.core a.wid = none
  token : s.token a.core a.wid (bar a) = none

section Arrive
variable (h : s.BarInv R (bar a)) (ha : s.Arrives a)
include h ha

theorem BarInv.arrivals_here :
    s.arrivals a.core a.wid (bar a) = R ∧ s.passed a.core a.wid (bar a) = R := by
  have hstatus := h.status a.core ha.core a.wid ha.wid
  rw [ha.token, ha.free] at hstatus
  exact hstatus.free

theorem BarInv.not_gathered : a.core ∉ s.told a := by
  intro hmem
  have hall := (h.gathered a.core hmem).2 a.wid ha.wid
  have hhere := (h.arrivals_here ha).1
  omega

theorem BarInv.arrivals_after (c w : ℕ) : (s.after a p dst release woken).arrivals c w (bar a) =
      if c = a.core ∧ w = a.wid then R + 1 else s.arrivals c w (bar a) := by
  have hhere := (h.arrivals_here ha).1
  by_cases hcw : c = a.core ∧ w = a.wid
  · obtain ⟨rfl, rfl⟩ := hcw
    simp [after, ha.instr, hhere]
  · rw [if_neg hcw]
    exact if_neg fun hc => hcw ⟨hc.1.1, hc.1.2.1⟩

theorem BarInv.waitMask_arrived (count : ℕ) (c : ℕ) (hc : c ∈ participants (bar a)) :
    (if c = a.core then s.joins a count else s.barrier c (bar a)).waitMask =
      (activeWarps c).filter fun w => s.stopped a false c w = some (bar a) := by
  by_cases hsync : a.instr = .sync
  · rw [filter_stopped (.inl hsync) ha.wid c]
    split_ifs with hi
    · subst hi
      simp [joined, hsync, h.waitMask _ ha.core]
    · exact h.waitMask c hc
  · have hstops : ¬a.Stops false := by simp [hsync, ha.instr]
    simp only [stopped_none hstops]
    split_ifs with hi
    · subst hi
      simp [joined, hsync, h.waitMask _ ha.core]
    · exact h.waitMask c hc

theorem BarInv.arrivalMask_arrived :
    insert a.wid (s.here a).arrivalMask = (activeWarps a.core).filter fun w =>
      (s.after a p dst release woken).arrivals a.core w (bar a) = R + 1 := by
  have hnot := h.not_gathered ha
  rw [(h.gathering a.core ha.core hnot).1]
  ext w
  rw [mem_insert, mem_filter, mem_filter, h.arrivals_after ha]
  by_cases hw : w = a.wid
  · subst hw
    simp [ha.wid]
  · simp [hw]

theorem BarInv.all_arrived_iff : s.Gathered a ↔
      ∀ w ∈ activeWarps a.core, (s.after a p dst release woken).arrivals a.core w (bar a) =
        R + 1 := by
  rw [Gathered, h.arrivalMask_arrived ha]
  exact card_filter_eq_iff

section Outcomes
variable (hdst : dst = BarrierProcessor.token (decide (a.instr = .sync)) (s.here a)) {count : ℕ}
include hdst

theorem BarInv.status_arrived (c : ℕ) (hc : c ∈ participants (bar a)) (w : ℕ)
    (hw : w ∈ activeWarps c) :
    Status R ((s.after a p dst release woken).arrivals c w (bar a)) (s.passed c w (bar a))
      ((s.after a p dst release woken).token c w (bar a))
      (decide (s.stopped a false c w = some (bar a))) := by
  rw [h.arrivals_after ha]
  by_cases hcw : c = a.core ∧ w = a.wid
  · obtain ⟨rfl, rfl⟩ := hcw
    have htok : (s.after a p dst release woken).token a.core a.wid (bar a) = dst :=
      if_pos ⟨rfl, rfl, rfl⟩
    have hphase : (s.here a).phase = R % 2 ^ 32 := h.phase _ hc
    rw [if_pos ⟨rfl, rfl⟩, htok, (h.arrivals_here ha).2, hdst]
    by_cases hsync : a.instr = .sync
    · simp only [hsync, decide_true, stopped_here (.inl hsync), BarrierProcessor.token, if_true]
      exact .waits
    · have hstops : ¬a.Stops false := by simp [hsync, ha.instr]
      have hbit : (s.here a).phase % 2 = R % 2 := by omega
      simp only [hsync, decide_false, stopped_none hstops, ha.free, BarrierProcessor.token, hbit,
        Bool.false_eq_true, if_false]
      exact .holds
  · have htok : (s.after a p dst release woken).token c w (bar a) = s.token c w (bar a) :=
      if_neg fun hc => hcw ⟨hc.1, hc.2.1⟩
    rw [if_neg hcw, htok, stopped_elsewhere hcw]
    exact h.status c hc w hw

theorem BarInv.warps_arrived (count : ℕ) (hmoves : s.proc.Moves p (bar a) next)
    (hwoken : ∀ i, woken i = ∅) (hphase : ∀ i, (next i).phase = (s.barrier i (bar a)).phase)
    (hevents : ∀ i ∈ participants (bar a), (next i).events = 0)
    (hwaitMask : ∀ i, (next i).waitMask = (if i = a.core then s.joins a count
      else s.barrier i (bar a)).waitMask) : (s.after a p dst false woken).WarpsInv R (bar a) := by
  have hwaiting (c w : ℕ) : (s.after a p dst false woken).waiting c w =
      s.stopped a false c w := by
    simp [after, hwoken]
  have hpassed (c w : ℕ) : (s.after a p dst false woken).passed c w (bar a) =
      s.passed c w (bar a) := by
    simp [after, hwoken]
  have hsame (c : ℕ) : ((p.cores c).barriers (bar a)).phase = (s.barrier c (bar a)).phase :=
    (congrArg phase (hmoves.barrier c)).trans (hphase c)
  refine ⟨?_, ?_, ?_, ?_, ?_⟩
  · exact fun c hc => (hsame c).trans (h.phase c hc)
  · intro c hc
    simp only [after, hsame, ne_eq, not_true_eq_false, if_false]
    exact h.advanced c hc
  · exact fun c hc => (congrArg events (hmoves.barrier c)).trans (hevents c hc)
  · intro c hc
    simp only [hwaiting]
    refine (congrArg waitMask (hmoves.barrier c)).trans ?_
    rw [hwaitMask]
    exact h.waitMask_arrived ha count c hc
  · intro c hc w hw
    rw [hwaiting, hpassed]
    exact h.status_arrived ha hdst c hc w hw

theorem BarInv.stays (hwoken : ∀ i, woken i = ∅)
    (hmoves : s.proc.Moves p (bar a) fun i => if i = a.core then s.joins a count
      else s.barrier i (bar a))
    (hgbarriers : p.gbarriers = s.proc.gbarriers) (hcard : ¬s.Gathered a) :
    (s.after a p dst false woken).BarInv R (bar a) := by
  refine ⟨h.warps_arrived ha hdst count hmoves hwoken ?_ ?_ fun i => rfl, ?_, ?_, ?_, ?_⟩
  · exact fun i => field_update phase rfl
  · intro i hi
    rw [← h.events i hi]
    exact field_update events rfl
  · intro c hc
    have hc : c ∈ s.proc.gbarriers _ := hgbarriers ▸ hc
    have hne : c ≠ a.core := by
      rintro rfl
      exact h.not_gathered ha hc
    obtain ⟨hmask, harrived⟩ := h.gathered c hc
    refine ⟨(congrArg arrivalMask ((hmoves.barrier c).trans (if_neg hne))).trans hmask,
      fun w hw => ?_⟩
    rw [h.arrivals_after ha, if_neg fun hcw => hne hcw.1]
    exact harrived w hw
  · intro c hc hnot
    have hnot : c ∉ s.proc.gbarriers _ := hgbarriers ▸ hnot
    have hbarrier := congrArg arrivalMask (hmoves.barrier c)
    by_cases hi : c = a.core
    · subst hi
      rw [if_pos rfl] at hbarrier
      refine ⟨hbarrier.trans (h.arrivalMask_arrived ha), ?_⟩
      obtain ⟨w, hw, hne⟩ : ∃ w ∈ activeWarps a.core,
          (s.after a p dst false woken).arrivals a.core w (bar a) ≠ R + 1 := by
        by_contra hall
        push Not at hall
        exact hcard ((h.all_arrived_iff ha).mpr hall)
      exact ⟨w, hw, (h.status_arrived ha hdst a.core ha.core w hw).arrivals.resolve_right hne⟩
    · obtain ⟨hmask, w, hw, hwR⟩ := h.gathering c hc hnot
      rw [if_neg hi] at hbarrier
      simp only [h.arrivals_after ha, hi, false_and, if_false]
      exact ⟨hbarrier.trans hmask, w, hw, hwR⟩
  · exact hgbarriers.symm ▸ h.toCoresInv.cores
  · exact hgbarriers.symm ▸ h.missing

theorem BarInv.gathers (hwoken : ∀ i, woken i = ∅)
    (hmoves : s.proc.Moves p (bar a) fun i => if i = a.core then (s.joins a count).gathered
      else s.barrier i (bar a))
    (hgbarriers : p.gbarriers (slot (bar a)) = insert a.core (s.told a))
    (hcard : s.Gathered a) (hcores : ¬s.Complete a) :
    (s.after a p dst false woken).BarInv R (bar a) := by
  have hsub : insert a.core (s.told a) ⊆ participants (bar a) :=
    insert_subset ha.core h.toCoresInv.cores
  refine ⟨h.warps_arrived ha hdst count hmoves hwoken ?_ ?_ ?_, ?_, ?_, ?_, ?_⟩
  · exact fun i => field_update phase rfl
  · intro i hi
    split_ifs
    · rfl
    · exact h.events i hi
  · intro i
    split_ifs <;> rfl
  · intro c hc
    have hbarrier := congrArg arrivalMask (hmoves.barrier c)
    by_cases hi : c = a.core
    · subst hi
      rw [if_pos rfl] at hbarrier
      exact ⟨hbarrier, (h.all_arrived_iff ha).mp hcard⟩
    · have hc : c ∈ insert a.core (s.told a) := hgbarriers ▸ hc
      obtain ⟨hmask, harrived⟩ := h.gathered c ((mem_insert.mp hc).resolve_left hi)
      rw [if_neg hi] at hbarrier
      simp only [h.arrivals_after ha, hi, false_and, if_false]
      exact ⟨hbarrier.trans hmask, harrived⟩
  · intro c hc hnot
    have hnot : c ∉ insert a.core (s.told a) := hgbarriers ▸ hnot
    have hi : c ≠ a.core := fun heq => hnot (heq ▸ mem_insert_self _ _)
    have hbarrier := congrArg arrivalMask ((hmoves.barrier c).trans (if_neg hi))
    obtain ⟨hmask, hsome⟩ := h.gathering c hc fun hmem => hnot (mem_insert_of_mem hmem)
    simp only [h.arrivals_after ha, hi, false_and, if_false]
    exact ⟨hbarrier.trans hmask, hsome⟩
  · exact hgbarriers.symm ▸ hsub
  · intro _
    by_contra hall
    push Not at hall
    refine hcores (congrArg card (hsub.antisymm fun c hc => ?_))
    exact hgbarriers ▸ hall c hc

variable (hwoken : ∀ i, woken i = if i = a.core then (s.joins a count).waitMask
  else if i ∈ s.told a then (s.barrier i (bar a)).waitMask else ∅)
include hwoken

omit hdst in
theorem BarInv.wakes (hc : c = a.core ∨ c ∈ s.told a) :
    woken c = (activeWarps c).filter fun w => s.stopped a false c w = some (bar a) := by
  have hpart : c ∈ participants (bar a) := by
    rcases hc with rfl | hc
    · exact ha.core
    · exact h.toCoresInv.cores hc
  rw [← h.waitMask_arrived ha count c hpart, hwoken]
  by_cases hi : c = a.core
  · rw [if_pos hi, if_pos hi]
  · rw [if_neg hi, if_neg hi, if_pos (hc.resolve_left hi)]

theorem BarInv.completes
    (hmoves : s.proc.Moves p (bar a) (s.proc.resumed (bar a) a.core (s.joins a count)
      (s.told a)))
    (hgbarriers : p.gbarriers (slot (bar a)) = ∅) (hcard : s.Gathered a) (hcores : s.Complete a)
    (hactive : ∀ c ∈ participants (bar a), (activeWarps c).Nonempty) :
    (s.after a p dst false woken).BarInv (R + 1) (bar a) := by
  have hsub : insert a.core (s.told a) ⊆ participants (bar a) :=
    insert_subset ha.core h.toCoresInv.cores
  have hall := eq_of_subset_of_card_le hsub hcores.ge
  have hmem {c : ℕ} (hc : c ∈ participants (bar a)) (hi : c ≠ a.core) :
      c ∈ s.told a :=
    (mem_insert.mp (hall ▸ hc : c ∈ insert a.core _)).resolve_left hi
  -- the barrier of a core that takes part, and the warps it resumes
  have hbarrier {c : ℕ} {b : WarpBarrier} (hc : c ∈ participants (bar a))
      (hb : (p.cores c).barriers (bar a) = b) :
      b.phase = add32 (s.barrier c (bar a)).phase 1 ∧ b.waitMask = ∅ ∧ b.events = 0 ∧
        b.arrivalMask = ∅ := by
    rw [← hb, hmoves.barrier, resumed]
    by_cases hi : c = a.core
    · subst hi
      rw [if_pos rfl]
      exact ⟨rfl, rfl, rfl, rfl⟩
    · rw [if_neg hi, if_pos (hmem hc hi)]
      exact ⟨rfl, rfl, h.events c hc, (h.gathered c (hmem hc hi)).1⟩
  have hwakes {c : ℕ} (hc : c ∈ participants (bar a)) :
      woken c = (activeWarps c).filter fun w => s.stopped a false c w = some (bar a) := by
    by_cases hi : c = a.core
    · exact h.wakes ha hwoken (.inl hi)
    · exact h.wakes ha hwoken (.inr (hmem hc hi))
  have harrived {c w : ℕ} (hc : c ∈ participants (bar a)) (hw : w ∈ activeWarps c) :
      (s.after a p dst false woken).arrivals c w (bar a) = R + 1 := by
    by_cases hi : c = a.core
    · subst hi
      exact (h.all_arrived_iff ha).mp hcard w hw
    · rw [h.arrivals_after ha, if_neg fun hcw => hi hcw.1]
      exact (h.gathered c (hmem hc hi)).2 w hw
  have hwaiting {c w : ℕ} (hc : c ∈ participants (bar a)) (hw : w ∈ activeWarps c) :
      (s.after a p dst false woken).waiting c w ≠ some (bar a) := by
    simp only [after]
    split_ifs with hmem
    · exact (Option.some_ne_none _).symm
    · rw [hwakes hc, mem_filter, not_and] at hmem
      exact hmem hw
  refine ⟨⟨?_, ?_, ?_, ?_, ?_⟩, ?_, ?_, ?_, ?_⟩
  · intro c hc
    have hphase := h.phase c hc
    refine (hbarrier hc rfl).1.trans ?_
    rw [hphase, add32]
    omega
  · intro c hc
    have hmove : ((p.cores c).barriers (bar a)).phase ≠ (s.barrier c (bar a)).phase := by
      rw [(hbarrier hc rfl).1, add32]
      omega
    simp only [after, if_pos hmove, h.advanced c hc]
  · exact fun c hc => (hbarrier hc rfl).2.2.1
  · intro c hc
    refine (hbarrier hc rfl).2.1.trans (filter_eq_empty_iff.mpr fun w hw => ?_).symm
    exact hwaiting hc hw
  · intro c hc w hw
    have hstatus : Status R ((s.after a p dst false woken).arrivals c w (bar a)) _ _ _ :=
      h.status_arrived ha hdst c hc w hw
    rw [harrived hc hw] at hstatus
    have hpassed : (s.after a p dst false woken).passed c w (bar a) =
        if decide (s.stopped a false c w = some (bar a)) then s.passed c w (bar a) + 1
        else s.passed c w (bar a) := by
      simp [after, hwakes hc, hw]
    rw [harrived hc hw, hpassed, decide_eq_false (hwaiting hc hw)]
    exact hstatus.next
  · intro c hc
    rw [show (s.after a p dst false woken).proc.gbarriers (slot (bar a)) =
      ∅ from hgbarriers] at hc
    exact absurd hc (notMem_empty c)
  · intro c hc _
    obtain ⟨w, hw⟩ := hactive c hc
    refine ⟨(hbarrier hc rfl).2.2.2.trans (filter_eq_empty_iff.mpr fun w hw => ?_).symm, w, hw,
      harrived hc hw⟩
    rw [harrived hc hw]
    omega
  · exact hgbarriers.symm ▸ empty_subset _
  · rintro ⟨c, hc⟩
    exact ⟨c, hc, hgbarriers.symm ▸ notMem_empty c⟩

end Outcomes

end Arrive

theorem slot_inj {g g' : ℕ} (hg : g < numBarriers) (hg' : g' < numBarriers)
    (h : slot g = slot g') : g = g' := by
  have hmod : 2 ^ 31 + g ≡ 2 ^ 31 + g' [MOD numBarriers] := h
  exact (Nat.ModEq.add_left_cancel' (2 ^ 31) hmod).eq_of_lt_of_lt hg hg'

def Inv (s : GlobalRounds) : Prop :=
  ∀ g < numBarriers, ∃ R, s.BarInv R g

/-- The processor that the barriers are used on: the cores that take part have active warps, and
their number fits an operand. -/
structure Fits : Prop where
  warps : 0 < numWarps
  barriers : numBarriers ≤ 2 ^ 31
  count : numCores < 2 ^ 31
  cores : ∀ g, participants g ⊆ range numCores
  active : ∀ g, ∀ c ∈ participants g, (activeWarps c).Nonempty

def Steps (s : GlobalRounds) (a : GlobalAction) : Prop :=
  ∃ p dst release woken, s.proc.processBar activeWarps a.core (s.trace a) =
      some (p, dst, release, woken) ∧
    (∃ R, (s.after a p dst release woken).BarInv R (bar a)) ∧
    (∃ next, s.proc.Moves p (bar a) next) ∧
    (∀ i, i ≠ slot (bar a) → p.gbarriers i = s.proc.gbarriers i) ∧
    ∀ c, ∀ w ∈ woken c, s.stopped a release c w = some (bar a)

theorem BarInv.arrive_step (hfits : Fits) (h : s.BarInv R (bar a)) (ha : s.Arrives a)
    (hid : GlobalId (barDecodeId a.arg1 numBarriers) (bar a)) : s.Steps a := by
  have hslot : barDecodeId a.arg1 numBarriers % numBarriers = slot (bar a) := by
    rw [slot, ← hid.eq]
  have hcount : (participants (bar a)).card < 2 ^ 31 := by
    have hle := card_le_card (hfits.cores (bar a))
    rw [card_range] at hle
    exact hle.trans_lt hfits.count
  have htrace : s.trace a = arrival (decide (a.instr = .sync)) a.wid a.arg1
      (participants (bar a)).card := by
    have hinstr := ha.instr
    unfold trace
    cases hi : a.instr with
    | wait => exact absurd hi hinstr
    | sync => rfl
    | arrive => rfl
  have hevents := h.events a.core ha.core
  rw [Steps, htrace]
  by_cases hcard : s.Gathered a
  · by_cases hcores : s.Complete a
    · have hmask : ∀ i ∈ s.told a, i < numCores := fun i hi =>
        mem_range.mp (hfits.cores _ (h.toCoresInv.cores hi))
      obtain ⟨p, woken, hproc, hmoves, hgbarriers, hwoken⟩ :=
        processBar_completes hid rfl (decide (a.instr = .sync)) hcount hevents hslot hcard
          (mem_range.mp (hfits.cores _ ha.core)) hmask hcores
      have hempty : p.gbarriers (slot (bar a)) = ∅ := by rw [hgbarriers, update_self]
      have hBar := h.completes ha rfl hwoken hmoves hempty hcard hcores (hfits.active _)
      refine ⟨p, _, false, woken, hproc, ⟨R + 1, hBar⟩, ⟨_, hmoves⟩, ?_, ?_⟩
      · exact fun i hi => by rw [hgbarriers, update_of_ne hi]
      intro c w hw
      by_cases hc : c = a.core ∨ c ∈ s.told a
      · rw [h.wakes ha hwoken hc] at hw
        exact (mem_filter.mp hw).2
      · rw [hwoken, if_neg fun hi => hc (.inl hi), if_neg fun hi => hc (.inr hi)] at hw
        exact absurd hw (notMem_empty w)
    · obtain ⟨p, woken, hproc, hmoves, hgbarriers, hwoken⟩ :=
        processBar_gathers hid rfl (decide (a.instr = .sync)) hcount hevents hslot hcard hcores
      have hmask : p.gbarriers (slot (bar a)) = insert a.core (s.told a) := by
        rw [hgbarriers, update_self]
      refine ⟨p, _, false, woken, hproc,
        ⟨R, h.gathers ha rfl hwoken hmoves hmask hcard hcores⟩,
        ⟨_, hmoves⟩, fun i hi => ?_, nobody_woken hwoken⟩
      rw [hgbarriers, update_of_ne hi]
  · obtain ⟨p, woken, hproc, hmoves, hgbarriers, hwoken⟩ :=
      processBar_stays hid rfl (decide (a.instr = .sync)) hcount hevents hcard
    exact ⟨p, _, false, woken, hproc, ⟨R, h.stays ha rfl hwoken hmoves hgbarriers hcard⟩,
      ⟨_, hmoves⟩, fun i _ => congrFun hgbarriers i, nobody_woken hwoken⟩

section
variable (hfits : Fits) (h : s.Inv) (hlawful : s.Lawful a) (hcomp : s.Comparable a)
include hfits h hlawful hcomp

theorem Inv.steps : s.Steps a := by
  obtain ⟨heq, hlt, hcore, hwid, hfree, htoken⟩ := hlawful
  have hid : GlobalId (barDecodeId a.arg1 numBarriers) (bar a) :=
    ⟨heq, hlt, hfits.warps, hfits.barriers⟩
  obtain ⟨R, hbar⟩ := h _ hlt
  by_cases hinstr : a.instr = .wait
  · have htoken : s.token a.core a.wid (bar a) ≠ none := fun hnone => htoken.mp hnone hinstr
    obtain ⟨p, dst, release, woken, hproc, hafter, hmoves, hgbarriers, hwoken⟩ :=
      hbar.wait_step hinstr hid hcore hwid hfree htoken hcomp
    exact ⟨p, dst, release, woken, hproc, ⟨R, hafter⟩, hmoves,
      fun i _ => congrFun hgbarriers i, nobody_woken hwoken⟩
  · exact hbar.arrive_step hfits ⟨hinstr, hcore, hwid, hfree, htoken.mpr hinstr⟩ hid

theorem Inv.step : ∃ s', s.step a = some (s', ()) ∧ s'.Inv := by
  obtain ⟨p, dst, release, woken, hproc, hafter, ⟨next, hmoves⟩, hgbarriers, hwoken⟩ :=
    h.steps hfits hlawful hcomp
  refine ⟨s.after a p dst release woken, ?_, fun g hg => ?_⟩
  · simp [GlobalRounds.step, hproc]
  by_cases heq : g = bar a
  · rw [heq]
    exact hafter
  · obtain ⟨R, hbar⟩ := h g hg
    refine ⟨R,
      hbar.frame heq hlawful.2.2.2.2.1 hwoken hmoves (hgbarriers _ fun hslot => heq ?_)⟩
    exact slot_inj hg hlawful.2.1 hslot

end

/-- What the program relies on: nobody has passed more often than everybody has arrived, a warp that
stands at a barrier waits for a round in which somebody has not arrived, and the phase of each core
has moved once for each round in which all have arrived. -/
structure Synchronized (s : GlobalRounds) : Prop where
  passed : ∀ g < numBarriers, ∀ c ∈ participants g, ∀ w ∈ activeWarps c,
    ∀ k ≤ s.passed c w g,
    ∀ c' ∈ participants g, ∀ w' ∈ activeWarps c', k ≤ s.arrivals c' w' g
  waiting : ∀ g < numBarriers, ∀ k,
    (∀ c ∈ participants g, ∀ w ∈ activeWarps c, k ≤ s.arrivals c w g) →
    ∀ c ∈ participants g, ∀ w ∈ activeWarps c, s.waiting c w = some g →
    k < s.arrivals c w g
  advanced : ∀ g < numBarriers, ∀ k,
    (∀ c ∈ participants g, ∀ w ∈ activeWarps c, k ≤ s.arrivals c w g) →
    (¬∀ c ∈ participants g, ∀ w ∈ activeWarps c, k + 1 ≤ s.arrivals c w g) →
    ∀ c ∈ participants g, s.advanced c g = k ∧ (s.barrier c g).phase = k % 2 ^ 32

theorem BarInv.behind (h : s.BarInv R g) (hc : c ∈ participants g) :
    ∃ c' ∈ participants g, ∃ w' ∈ activeWarps c', s.arrivals c' w' g = R := by
  obtain ⟨c', hc', hnot⟩ := h.missing ⟨c, hc⟩
  obtain ⟨w', hw', hR⟩ := (h.gathering c' hc' hnot).2
  exact ⟨c', hc', w', hw', hR⟩

theorem BarInv.arrivals_ge (h : s.BarInv R g) (hc : c ∈ participants g)
    (hw : w ∈ activeWarps c) : R ≤ s.arrivals c w g := by
  rcases (h.status c hc w hw).arrivals with hR | hR
  · exact hR.ge
  · omega

theorem Inv.synchronized (h : s.Inv) : s.Synchronized := by
  refine ⟨?_, ?_, ?_⟩
  · intro g hg c hc w hw k hk c' hc' w' hw'
    obtain ⟨R, hbar⟩ := h g hg
    exact (hk.trans (hbar.status c hc w hw).passed).trans (hbar.arrivals_ge hc' hw')
  · intro g hg k hall c hc w hw hwaits
    obtain ⟨R, hbar⟩ := h g hg
    obtain ⟨c', hc', w', hw', hR⟩ := hbar.behind hc
    have hk := hall c' hc' w' hw'
    have hstatus := hbar.status c hc w hw
    rw [decide_eq_true hwaits] at hstatus
    have harrived := hstatus.waiting
    omega
  · intro g hg k hall hmore c hc
    obtain ⟨R, hbar⟩ := h g hg
    obtain ⟨c', hc', w', hw', hR⟩ := hbar.behind hc
    have hk := hall c' hc' w' hw'
    have heq : k = R := by
      by_contra hne
      exact hmore fun c hc w hw => le_trans (by omega) (hbar.arrivals_ge hc hw)
    exact ⟨heq ▸ hbar.advanced c hc, heq ▸ hbar.phase c hc⟩

theorem inv_reset (hfits : Fits) : reset.Inv := by
  intro g _
  refine ⟨0, ⟨fun _ _ => rfl, fun _ _ => rfl, fun _ _ => rfl, ?_, fun _ _ _ _ => .idle⟩, ?_,
    ?_, ?_, ?_⟩
  · exact fun c _ => (filter_eq_empty_iff.mpr fun w _ => nofun).symm
  · exact fun c hc => absurd hc (notMem_empty c)
  · intro c hc _
    obtain ⟨w, hw⟩ := hfits.active g c hc
    exact ⟨(filter_eq_empty_iff.mpr fun w _ => nofun).symm, w, hw, rfl⟩
  · exact empty_subset _
  · rintro ⟨c, hc⟩
    exact ⟨c, hc, notMem_empty c⟩

/-- Where every `BAR.WAIT` for an open round comes in the first two rounds, the warps of all cores
that take part are synchronized in every state of every run. -/
theorem cores_synchronized (hfits : Fits) {actions : List GlobalAction}
    (hlawful : Along step (fun s a => s.Lawful a ∧ s.Comparable a) reset actions) :
    ∃ s outs, run step reset actions = some (s, outs) ∧ s.Synchronized := by
  obtain ⟨s, outs, hrun, hs⟩ := run_keeps (I := Inv)
    (fun s a h hC => by
      obtain ⟨t, hstep, ht⟩ := h.step hfits hC.1 hC.2
      exact ⟨t, (), hstep, ht⟩)
    (inv_reset hfits) hlawful
  exact ⟨s, outs, hrun, hs.synchronized⟩

end Rounds

abbrev pair : Meeting where
  numWarps := 4
  numBarriers := 8
  numCores := 2
  participants _ := {0, 1}
  activeWarps _ := {0, 1}

theorem cores_synchronized_pair :
    let actions :=
  [GlobalAction.mk .sync 0 0 (2 ^ 31), ⟨.arrive, 1, 0, 2 ^ 31⟩, ⟨.sync, 1, 1, 2 ^ 31⟩,
      ⟨.wait, 1, 0, 2 ^ 31⟩, ⟨.sync, 0, 1, 2 ^ 31⟩, ⟨.arrive, 0, 0, 2 ^ 31⟩]
    ∃ s outs, run (@GlobalRounds.step pair) reset actions = some (s, outs) ∧
      @Synchronized pair s :=
  @cores_synchronized pair (@Fits.mk pair (by decide) (by decide) (by decide)
    (fun _ => (by decide : {0, 1} ⊆ range 2)) fun _ _ _ => ⟨0, mem_insert_self _ _⟩) _ (by
      decide +kernel)

abbrev single : Meeting := { pair with numCores := 1, participants _ := {0} }

/-- In the third round a warp passes its `BAR.WAIT` before the other one has arrived. -/
theorem third_round_passed_early :
    let actions :=
  [GlobalAction.mk .sync 0 0 (2 ^ 31), ⟨.sync, 0, 1, 2 ^ 31⟩, ⟨.sync, 0, 0, 2 ^ 31⟩,
      ⟨.sync, 0, 1, 2 ^ 31⟩, ⟨.arrive, 0, 0, 2 ^ 31⟩, ⟨.wait, 0, 0, 2 ^ 31⟩]
    Along (@GlobalRounds.step single) (@Lawful single) reset actions ∧
    (run (@GlobalRounds.step single) reset actions).map
      (fun r => (r.1.passed 0 0 0, r.1.arrivals 0 1 0)) = some (3, 2) := by
  decide +kernel

end GlobalRounds

end VortexGpu.Simx

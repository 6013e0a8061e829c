import VortexGpu.Barrier

/-!
# Tokens of a barrier

`BAR.ARRIVE` gives its warp a token, and `BAR.WAIT` with the token stops the warp until the round
of the token is over. `BarrierTokens` keeps beside the unit how many rounds of each barrier are
over, the round in which each token was given, and the round that each stopped warp waits for.
-/

namespace VortexGpu.Simx
open Word Runs WarpBarrier Finset Function BarrierConfig

/-- The value that a `BAR.ARRIVE` has written, and the round in which it did. -/
structure Token where
  barId : ℕ
  wid : ℕ
  value : ℕ
  round : ℕ
deriving DecidableEq

structure BarrierTokens where
  unit : BarrierUnit
  rounds : ℕ → ℕ
  tokens : List Token
  waiting : ℕ → Option (ℕ × ℕ)

/-- `BAR.WAIT` reads a token, the other instructions read none. -/
inductive TokenAction where
  | bar (a : BarTrace)
  | wait (arg1 : ℕ) (t : Token)
  | release (barId : ℕ)
deriving DecidableEq

namespace TokenAction

def action : TokenAction → BarAction
  | .bar a => .bar a
  | .wait arg1 t => .bar ⟨.barWait, t.wid, arg1, t.value⟩
  | .release barId => .release barId

def round (a : TokenAction) (now : ℕ) : ℕ :=
  match a with
  | .wait _ t => t.round
  | _ => now

end TokenAction

/-- Whether the instruction has stopped its warp and whether it has to, and the same for the warps
it resumes. What has to be is read from the rounds. -/
structure TokenOutcome where
  stopped : Bool
  roundOpen : Bool
  resumed : WarpMask
  due : WarpMask
deriving DecidableEq

/-- The instruction has stopped its warp: `BAR` always does, and `BAR.WAIT` if it does not release
it. -/
def BarResult.stopped (r : BarResult) : BarOp → Bool
  | .sync _ => true
  | .wait _ => !r.releaseWarp
  | _ => false

def BarResult.tokens (r : BarResult) (barId wid round : ℕ) : BarOp → List Token
  | .arrive _ => r.dst.toList.map fun value => ⟨barId, wid, value, round⟩
  | _ => []

namespace BarrierTokens

section
variable [BarrierConfig] (activeWarps : WarpMask)

def reset : BarrierTokens := ⟨.reset, fun _ => 0, [], fun _ => none⟩

def waiters (waiting : ℕ → Option (ℕ × ℕ)) (barId round : ℕ) : WarpMask :=
  (range numWarps).filter fun w => waiting w = some (barId, round)

def step (s : BarrierTokens) (a : TokenAction) : Option (BarrierTokens × TokenOutcome) := do
  let (u, r) ← s.unit.act activeWarps a.action
  let barId := a.action.barId
  let now := s.rounds barId
  let ends := decide ((u.barriers barId).phase ≠ (s.unit.barriers barId).phase)
  let waiting :=
    if r.stopped a.action.op then update s.waiting a.action.wid (some (barId, a.round now))
    else s.waiting
  some ({ unit := u
          rounds := if ends then update s.rounds barId (now + 1) else s.rounds
          tokens := r.tokens barId a.action.wid now a.action.op ++ s.tokens
          waiting := fun w => if w ∈ r.resumed then none else waiting w },
        { stopped := r.stopped a.action.op
          roundOpen := decide (a.round now = now)
          resumed := r.resumed
          due := if ends then waiters waiting barId now else ∅ })

/-- A warp that is not stopped executes the instruction, and `BAR.WAIT` with a token that it was
given for that barrier, before the round after next is over. -/
def Lawful (s : BarrierTokens) (a : TokenAction) : Prop :=
  a.action.Local ∧ (s.unit.barriers a.action.barId).allows a.action.op = true ∧
  match a with
  | .bar a => a.instr ≠ .barWait ∧ a.wid < numWarps ∧ s.waiting a.wid = none
  | .wait arg1 t =>
    t ∈ s.tokens ∧ t.barId = barDecodeId arg1 numBarriers ∧ s.waiting t.wid = none ∧
      s.rounds t.barId ≤ t.round + 2
  | .release _ => True

/-- The running phase and the one bit of a token can be compared: at an open round the phase is one
of the first two, two rounds later it is not. -/
def Comparable (s : BarrierTokens) : TokenAction → Prop
  | .wait _ t => (s.rounds t.barId = t.round → (s.unit.barriers t.barId).phase < 2) ∧
      (s.rounds t.barId = t.round + 2 → 2 ≤ (s.unit.barriers t.barId).phase)
  | _ => True

instance (s : BarrierTokens) : ∀ a, Decidable (s.Lawful a)
  | .bar _ | .wait _ _ | .release _ => inferInstanceAs (Decidable (_ ∧ _ ∧ _))

instance (s : BarrierTokens) : ∀ a, Decidable (s.Comparable a)
  | .wait _ _ => inferInstanceAs (Decidable (_ ∧ _))
  | .bar _ | .release _ => .isTrue trivial

structure Inv (s : BarrierTokens) : Prop where
  phase : ∀ i, (s.unit.barriers i).phase = s.rounds i % 2 ^ 32
  waitMask : ∀ i, (s.unit.barriers i).waitMask = waiters s.waiting i (s.rounds i)
  waiting : ∀ w i r, s.waiting w = some (i, r) → w < numWarps ∧ r = s.rounds i
  token : ∀ t ∈ s.tokens, t.wid < numWarps ∧ t.value = t.round % 2 ∧
    t.round ≤ s.rounds t.barId

section Waiters
variable {waiting : ℕ → Option (ℕ × ℕ)} {wid i r id now : ℕ}

theorem waiters_park (hwid : wid < numWarps) (hfree : waiting wid = none) :
    waiters (update waiting wid (some (id, now))) i r =
      if i = id ∧ r = now then insert wid (waiters waiting i r) else waiters waiting i r := by
  ext w
  by_cases hw : w = wid
  · subst hw
    by_cases hi : i = id ∧ r = now
    · obtain ⟨rfl, rfl⟩ := hi
      simp [waiters, hwid]
    · rw [if_neg hi]
      have hne : ¬(id = i ∧ now = r) := fun h => hi ⟨h.1.symm, h.2.symm⟩
      simp [waiters, hfree, hne]
  · split_ifs <;> simp [waiters, hw]

theorem waiters_resume :
    waiters (fun w => if w ∈ waiters waiting id now then none else waiting w) i r =
      if i = id ∧ r = now then ∅ else waiters waiting i r := by
  ext w
  by_cases hi : i = id ∧ r = now
  · obtain ⟨rfl, rfl⟩ := hi
    suffices w < numWarps → (w < numWarps → waiting w ≠ some (i, r)) →
        waiting w ≠ some (i, r) by
      simpa [waiters] using this
    exact fun hw h => h hw
  · rw [if_neg hi]
    simp only [waiters, mem_filter, mem_range]
    refine and_congr_right fun _ => ?_
    split_ifs with hmem
    · have hne : some (id, now) ≠ some (i, r) := by
        simp only [ne_eq, Option.some.injEq, Prod.mk.injEq]
        exact fun h => hi ⟨h.1.symm, h.2.symm⟩
      simp [hmem.2, hne]
    · rfl

end Waiters

section Step
variable {activeWarps} {s : BarrierTokens} {a : TokenAction}

omit [BarrierConfig] in
theorem result_stopped (b : WarpBarrier) (wid : ℕ) (op : BarOp) :
    (b.result wid op).stopped op = b.parks op := by
  cases op <;> simp [BarResult.stopped, result, releases, parks]

def stop (s : BarrierTokens) (a : TokenAction) : ℕ → Option (ℕ × ℕ) :=
  if (s.unit.barriers a.action.barId).parks a.action.op then
    update s.waiting a.action.wid
      (some (a.action.barId, a.round (s.rounds a.action.barId)))
  else s.waiting

theorem step_eq (h : s.Lawful a) :
    let barId := a.action.barId
    let now := s.rounds barId
    let b := s.unit.barriers barId
    let woken := if b.ends a.action.op then b.parked a.action.wid a.action.op else ∅
    s.step activeWarps a = some (
      { unit := ⟨update s.unit.barriers barId (b.next a.action.wid a.action.op)⟩
        rounds := if b.ends a.action.op then update s.rounds barId (now + 1) else s.rounds
        tokens :=
          (b.result a.action.wid a.action.op).tokens barId a.action.wid now a.action.op ++ s.tokens
        waiting := fun w => if w ∈ woken then none else s.stop a w },
      { stopped := b.parks a.action.op
        roundOpen := decide (a.round now = now)
        resumed := woken
        due := if b.ends a.action.op then waiters (s.stop a) barId now else ∅ }) := by
  intro barId now b woken
  have hact : s.unit.act activeWarps a.action = _ := BarrierUnit.act_eq h.1 h.2.1
  simp only [step, hact, Option.bind_eq_bind, Option.bind_some, update_self, result_stopped,
    next_phase_ne]
  rfl

theorem Inv.wait_iff (h : s.Inv) {arg1 : ℕ} {t : Token} (hlawful : s.Lawful (.wait arg1 t))
    (hcomp : s.Comparable (.wait arg1 t)) :
    (s.unit.barriers t.barId).phase = t.value ↔ t.round = s.rounds t.barId := by
  obtain ⟨hfirst, hthird⟩ := hcomp
  obtain ⟨-, -, hmem, -, -, hlast⟩ := hlawful
  obtain ⟨-, hvalue, hle⟩ := h.token t hmem
  have hphase := h.phase t.barId
  omega

section
variable (h : s.Inv) (hlawful : s.Lawful a) (hcomp : s.Comparable a)
include h hlawful hcomp

theorem Inv.parks (hparks : (s.unit.barriers a.action.barId).parks a.action.op = true) :
    a.action.wid < numWarps ∧ s.waiting a.action.wid = none ∧
      a.round (s.rounds a.action.barId) = s.rounds a.action.barId := by
  cases a with
  | bar a => exact ⟨hlawful.2.2.2.1, hlawful.2.2.2.2, rfl⟩
  | wait arg1 t =>
    obtain ⟨-, -, hmem, hid, hfree, -⟩ := id hlawful
    have hvalue : (s.unit.barriers (barDecodeId arg1 numBarriers)).phase = t.value :=
      of_decide_eq_true hparks
    rw [← hid] at hvalue
    refine ⟨(h.token t hmem).1, hfree, ?_⟩
    change t.round = s.rounds (barDecodeId arg1 numBarriers)
    rw [← hid]
    exact (h.wait_iff hlawful hcomp).mp hvalue
  | release barId => cases hparks

theorem Inv.stop_waiters (i : ℕ) : waiters (s.stop a) i (s.rounds i) =
      if i = a.action.barId then (s.unit.barriers i).parked a.action.wid a.action.op
      else (s.unit.barriers i).waitMask := by
  cases hparks : (s.unit.barriers a.action.barId).parks a.action.op with
  | false =>
    rw [stop, hparks, if_neg Bool.false_ne_true, ← h.waitMask]
    split_ifs with hi
    · subst hi
      rw [parked, hparks, if_neg Bool.false_ne_true]
    · rfl
  | true =>
    obtain ⟨hwid, hfree, hround⟩ := h.parks hlawful hcomp hparks
    rw [stop, hparks, if_pos rfl, hround, waiters_park hwid hfree, ← h.waitMask]
    by_cases hi : i = a.action.barId
    · subst hi
      rw [if_pos ⟨rfl, rfl⟩, if_pos rfl, parked, hparks, if_pos rfl]
    · rw [if_neg (fun hc => hi hc.1), if_neg hi]

theorem Inv.stop_waiting {w i r : ℕ}
    (hw : s.stop a w = some (i, r)) : w < numWarps ∧ r = s.rounds i := by
  cases hparks : (s.unit.barriers a.action.barId).parks a.action.op with
  | false =>
    rw [stop, hparks, if_neg Bool.false_ne_true] at hw
    exact h.waiting w i r hw
  | true =>
    obtain ⟨hwid, hfree, hround⟩ := h.parks hlawful hcomp hparks
    rw [stop, hparks, if_pos rfl, hround] at hw
    by_cases heq : w = a.action.wid
    · rw [heq, update_self] at hw
      cases hw
      exact ⟨heq ▸ hwid, rfl⟩
    · rw [update_of_ne heq] at hw
      exact h.waiting w i r hw

end

omit [BarrierConfig] in
theorem mem_tokens {b : WarpBarrier} {wid barId round : ℕ} {op : BarOp} {t : Token}
    (h : t ∈ (b.result wid op).tokens barId wid round op) :
    t = ⟨barId, wid, b.phase % 2, round⟩ ∧ ∃ count, op = .arrive count := by
  cases op with
  | arrive count => exact ⟨List.mem_singleton.mp h, count, rfl⟩
  | _ => cases h

theorem Inv.given (h : s.Inv) (hlawful : s.Lawful a) {t : Token}
    (ht : t ∈ ((s.unit.barriers a.action.barId).result a.action.wid a.action.op).tokens
      a.action.barId a.action.wid (s.rounds a.action.barId) a.action.op) :
    t.wid < numWarps ∧ t.value = t.round % 2 ∧ t.round = s.rounds t.barId := by
  obtain ⟨rfl, count, hop⟩ := mem_tokens ht
  have hphase := h.phase a.action.barId
  have hwid : a.action.wid < numWarps := by
    cases a with
    | bar a => exact hlawful.2.2.2.1
    | wait arg1 t | release barId => cases hop
  refine ⟨hwid, ?_, rfl⟩
  change (s.unit.barriers a.action.barId).phase % 2 = s.rounds a.action.barId % 2
  omega

/-- What is right about an outcome: exactly the warps that have waited for the round are resumed,
and a `BAR.WAIT` stops its warp if the round of the token is open. -/
def Right (a : TokenAction) (o : TokenOutcome) : Prop :=
  o.resumed = o.due ∧
  match a with
  | .wait _ _ => o.stopped = o.roundOpen
  | _ => True

section
variable (h : s.Inv) (hlawful : s.Lawful a) (hcomp : s.Comparable a)
include h hlawful hcomp

theorem Inv.right (activeWarps : WarpMask) :
    ∃ s' o, s.step activeWarps a = some (s', o) ∧ Right a o := by
  refine ⟨_, _, step_eq hlawful, ?_, ?_⟩
  · have hparked := h.stop_waiters hlawful hcomp a.action.barId
    rw [if_pos rfl] at hparked
    rw [hparked]
  cases a with
  | wait arg1 t =>
    have hid := hlawful.2.2.2.1
    have hiff := h.wait_iff hlawful hcomp
    rw [hid] at hiff
    exact decide_eq_decide.mpr hiff
  | _ => trivial

variable {given : List Token}
  (hgiven : ∀ t ∈ given, t.wid < numWarps ∧ t.value = t.round % 2 ∧
    t.round = s.rounds t.barId)
include hgiven

theorem Inv.stays (hends : (s.unit.barriers a.action.barId).ends a.action.op = false) :
    Inv ⟨⟨update s.unit.barriers a.action.barId
      ((s.unit.barriers a.action.barId).next a.action.wid a.action.op)⟩, s.rounds,
        given ++ s.tokens, s.stop a⟩ where
  phase := by
    intro i
    by_cases hi : i = a.action.barId
    · subst hi
      simp [next, hends, h.phase]
    · simp [hi, h.phase]
  waitMask := by
    intro i
    refine Eq.trans ?_ (h.stop_waiters hlawful hcomp i).symm
    by_cases hi : i = a.action.barId
    · subst hi
      simp [next, hends]
    · simp [hi]
  waiting := fun _ _ _ => h.stop_waiting hlawful hcomp
  token := by
    intro t ht
    rcases List.mem_append.mp ht with hnew | hold
    · obtain ⟨hwid, hvalue, hround⟩ := hgiven t hnew
      exact ⟨hwid, hvalue, hround.le⟩
    · exact h.token t hold

theorem Inv.round_ends (hends : (s.unit.barriers a.action.barId).ends a.action.op = true) :
    Inv ⟨⟨update s.unit.barriers a.action.barId
      ((s.unit.barriers a.action.barId).next a.action.wid a.action.op)⟩,
      update s.rounds a.action.barId (s.rounds a.action.barId + 1), given ++ s.tokens,
      fun w => if w ∈ (s.unit.barriers a.action.barId).parked a.action.wid a.action.op then none
        else s.stop a w⟩ := by
  have hparked := h.stop_waiters hlawful hcomp a.action.barId
  rw [if_pos rfl] at hparked
  have hle (i : ℕ) : s.rounds i ≤
      update s.rounds a.action.barId (s.rounds a.action.barId + 1) i := by
    rw [update_apply]
    split_ifs with hi
    · rw [hi]
      omega
    · exact le_rfl
  rw [← hparked]
  refine ⟨fun i => ?_, fun i => ?_, fun w i r hw => ?_, fun t ht => ?_⟩
  · by_cases hi : i = a.action.barId
    · subst hi
      simp [next, hends, h.phase, add32]
    · simp [hi, h.phase]
  · rw [waiters_resume]
    by_cases hi : i = a.action.barId
    · -- nobody waits for the round that begins
      subst hi
      have hnone : waiters (s.stop a) a.action.barId (s.rounds a.action.barId + 1) = ∅ := by
        refine filter_eq_empty_iff.mpr fun w _ hw => ?_
        have hround := (h.stop_waiting hlawful hcomp hw).2
        omega
      simp [next, hends, hnone]
    · have hwaiters := h.stop_waiters hlawful hcomp i
      simp only [update_of_ne hi, if_neg hi,
        if_neg (fun hc : i = _ ∧ _ => hi hc.1)] at hwaiters ⊢
      exact hwaiters.symm
  · obtain ⟨hnot, hstop⟩ : w ∉ waiters (s.stop a) a.action.barId
        (s.rounds a.action.barId) ∧ s.stop a w = some (i, r) := by
      by_cases hmem : w ∈ waiters (s.stop a) a.action.barId (s.rounds a.action.barId)
      · simp [hmem] at hw
      · simpa [hmem] using hw
    obtain ⟨hwid, hround⟩ := h.stop_waiting hlawful hcomp hstop
    have hi : i ≠ a.action.barId := by
      rintro rfl
      exact hnot (mem_filter.mpr ⟨mem_range.mpr hwid, hround ▸ hstop⟩)
    exact ⟨hwid, hround.trans (update_of_ne hi _ _).symm⟩
  · rcases List.mem_append.mp ht with hnew | hold
    · obtain ⟨hwid, hvalue, hround⟩ := hgiven t hnew
      exact ⟨hwid, hvalue, hround.le.trans (hle t.barId)⟩
    · obtain ⟨hwid, hvalue, hround⟩ := h.token t hold
      exact ⟨hwid, hvalue, hround.trans (hle t.barId)⟩

omit hgiven in
theorem Inv.step : ∃ s' o, s.step activeWarps a = some (s', o) ∧ s'.Inv ∧ Right a o := by
  obtain ⟨s', o, hstep, hright⟩ := h.right hlawful hcomp activeWarps
  refine ⟨s', o, hstep, ?_, hright⟩
  cases (step_eq hlawful).symm.trans hstep
  have hgiven := fun t ht => h.given hlawful (t := t) ht
  cases hends : (s.unit.barriers a.action.barId).ends a.action.op with
  | false => exact h.stays hlawful hcomp hgiven hends
  | true => exact h.round_ends hlawful hcomp hgiven hends

end

theorem inv_reset : reset.Inv where
  phase := fun _ => rfl
  waitMask := fun _ => (filter_eq_empty_iff.mpr fun _ _ hw => nomatch hw).symm
  waiting := fun _ _ _ hw => nomatch hw
  token := fun _ ht => nomatch ht

end Step

/-- Where every `BAR.WAIT` comes while its token can be compared with the phase, it stops its warp
if and only if the round of the token is open, every instruction resumes exactly the warps that
wait for the round it ends, and who still waits does so for an open round. -/
theorem waits_follow_rounds {actions : List TokenAction}
    (hlawful : Along (step activeWarps) (fun s a => s.Lawful a ∧ s.Comparable a) reset actions) :
    ∃ s outs, run (step activeWarps) reset actions = some (s, outs) ∧
    List.Forall₂ Right actions outs ∧
      ∀ w barId round, s.waiting w = some (barId, round) → s.rounds barId = round := by
  obtain ⟨s, outs, hrun, hs, houts⟩ := run_invariant (I := Inv) (P := Right)
    (fun s a h hC => h.step hC.1 hC.2) inv_reset hlawful
  refine ⟨s, outs, hrun, houts, fun w barId round hw => ?_⟩
  exact (hs.waiting w barId round hw).2.symm

end

/-- Two warps of which the second one waits for the first round until the first one arrives, while
the first one finds the round over. -/
theorem waits_follow_rounds_first :
    letI : BarrierConfig := ⟨4, 8⟩
    let actions :=
  [TokenAction.bar ⟨.barArrive, 1, 0, 2⟩, .wait 0 ⟨0, 1, 0, 0⟩,
    .bar ⟨.barArrive, 0, 0, 2⟩,
      .wait 0 ⟨0, 0, 0, 0⟩]
    ∃ s outs, run (step {0, 1}) reset actions = some (s, outs) ∧
    List.Forall₂ Right actions outs ∧
      ∀ w barId round, s.waiting w = some (barId, round) → s.rounds barId = round :=
  @waits_follow_rounds ⟨4, 8⟩ {0, 1} _ (by decide +kernel)

/-- In the third round the token is 0 and the phase is 2: the warp does not stop. -/
theorem third_round_not_awaited :
    letI : BarrierConfig := ⟨4, 8⟩
    let actions :=
  [TokenAction.bar ⟨.barArrive, 0, 0, 1⟩, .bar ⟨.barArrive, 0, 0, 1⟩,
    .bar ⟨.barArrive, 0, 0, 2⟩,
      .wait 0 ⟨0, 0, 0, 2⟩]
    Along (step {0, 1}) (fun s a => s.Lawful a) reset actions ∧
    (run (step {0, 1}) reset actions).map
      (fun r => r.2.getLast?.map fun o => (o.stopped, o.roundOpen)) =
        some (some (false, true)) := by
  decide +kernel

end BarrierTokens

end VortexGpu.Simx

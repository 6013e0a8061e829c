import VortexGpu.Barrier

/-!
# Rounds of a barrier

A round of a barrier with `n` participants is over when they have all arrived and every transaction
attached to the round has been released. `Round` counts both; the unit has one counter of arrivals,
which is back at 0 when all have arrived, and one of the transactions.
-/

namespace VortexGpu.Simx
open Word Runs Function BarrierConfig

structure Round where
  arrived : ℕ := 0
  pending : ℕ := 0
  completed : ℕ := 0
deriving DecidableEq

namespace Round

def settle (n : ℕ) (r : Round) : Round :=
  if r.arrived = n ∧ r.pending = 0 then ⟨0, 0, r.completed + 1⟩ else r

def next (n : ℕ) (r : Round) : BarOp → Round
  | .sync _ | .arrive _ => settle n ⟨r.arrived + 1, r.pending, r.completed⟩
  | .expectTx count => ⟨r.arrived, r.pending + count, r.completed⟩
  | .release => settle n ⟨r.arrived, r.pending - 1, r.completed⟩
  | .wait _ => r

theorem settle_completed {n a p c : ℕ} : (settle n ⟨a, p, c⟩).completed ≠ c ↔
    a = n ∧ p = 0 := by
  unfold settle
  split_ifs with hover
  all_goals simpa using hover

theorem next_completed (n : ℕ) (r : Round) (op : BarOp) :
    (r.next n op).completed = r.completed ∨ (r.next n op).completed = r.completed + 1 := by
  have hsettle {a p c : ℕ} : (settle n ⟨a, p, c⟩).completed = c ∨
      (settle n ⟨a, p, c⟩).completed = c + 1 := by
    unfold settle
    split_ifs <;> simp
  cases op with
  | sync count | arrive count | release => exact hsettle
  | wait phase | expectTx count => exact .inl rfl

def Lawful (n : ℕ) (r : Round) : BarOp → Prop
  | .sync count | .arrive count => count = n ∧ r.arrived < n
  | .expectTx _ => r.arrived < n
  | .release => 0 < r.pending
  | .wait _ => True

/-- The transactions do not drain while nobody has arrived, and their number fits the counter. -/
def Kept (r : Round) : BarOp → Prop
  | .expectTx count => r.pending + count < 2 ^ 32
  | .release => ¬(r.pending = 1 ∧ r.arrived = 0)
  | _ => True

instance (n : ℕ) (r : Round) : ∀ op, Decidable (r.Lawful n op)
  | .sync _ | .arrive _ => inferInstanceAs (Decidable (_ ∧ _))
  | .expectTx _ | .release => inferInstanceAs (Decidable (_ < _))
  | .wait _ => .isTrue trivial

instance (r : Round) : ∀ op, Decidable (r.Kept op)
  | .expectTx _ => inferInstanceAs (Decidable (_ < _))
  | .release => inferInstanceAs (Decidable (¬(_ ∧ _)))
  | .sync _ | .arrive _ | .wait _ => .isTrue trivial

end Round

structure WarpBarrier.InRound (n : ℕ) (b : WarpBarrier) (r : Round) : Prop where
  count : b.count = r.arrived % n
  events : b.events = r.pending
  phase : b.phase = r.completed % 2 ^ 32
  arrived : r.arrived ≤ n
  pending : r.pending < 2 ^ 32
  isOpen : ¬(r.arrived = n ∧ r.pending = 0)

namespace WarpBarrier.InRound
variable {n : ℕ} {b : WarpBarrier} {r : Round} {op : BarOp}

theorem allows (h : b.InRound n r) (hn : 0 < n) (hlawful : r.Lawful n op) : b.allows op = true := by
  cases op with
  | sync count | arrive count =>
    obtain ⟨rfl, -⟩ := hlawful
    exact decide_eq_true hn.ne'
  | release =>
    have hpos : 0 < r.pending := hlawful
    have hevents := h.events
    exact decide_eq_true (by omega)
  | _ => rfl

theorem add32_count (h : b.InRound n r) (hsize : n < 2 ^ 32) (hlt : r.arrived < n) :
    add32 b.count 1 = r.arrived + 1 := by
  rw [h.count, Nat.mod_eq_of_lt hlt, add32_of_lt (by omega)]

theorem ends_iff (h : b.InRound n r) (hsize : n < 2 ^ 32) (hlawful : r.Lawful n op)
    (hkept : r.Kept op) : b.ends op = true ↔ (r.next n op).completed ≠ r.completed := by
  cases op with
  | sync count | arrive count =>
    obtain ⟨rfl, hlt⟩ := hlawful
    rw [WarpBarrier.ends, decide_eq_true_iff, h.add32_count hsize hlt, h.events, Round.next,
      Round.settle_completed]
  | release =>
    have hpos : 0 < r.pending := hlawful
    have hkept : ¬(r.pending = 1 ∧ r.arrived = 0) := hkept
    have hmod : r.arrived % n = 0 ↔ r.arrived = 0 ∨ r.arrived = n := by
      rcases h.arrived.lt_or_eq with hlt | heq
      · rw [Nat.mod_eq_of_lt hlt]
        omega
      · simp [heq]
    rw [WarpBarrier.ends, decide_eq_true_iff, h.events, h.count, hmod, Round.next,
      Round.settle_completed]
    omega
  | _ => simp [WarpBarrier.ends, Round.next]

theorem settled {a p c : ℕ} (hn : 0 < n) (ha : a ≤ n) (hp : p < 2 ^ 32)
    (hcount : b.count = a % n)
    (hevents : b.events = p)
    (hphase : b.phase = (Round.settle n ⟨a, p, c⟩).completed % 2 ^ 32) :
    b.InRound n (Round.settle n ⟨a, p, c⟩) := by
  unfold Round.settle at hphase ⊢
  split_ifs at hphase ⊢ with hover
  · obtain ⟨rfl, rfl⟩ : a = n ∧ p = 0 := hover
    exact ⟨by simp [hcount], hevents, hphase, hn.le, by norm_num, fun h => hn.ne h.1⟩
  · exact ⟨hcount, hevents, hphase, ha, hp, hover⟩

theorem next_phase (h : b.InRound n r) (hsize : n < 2 ^ 32) (hlawful : r.Lawful n op)
    (hkept : r.Kept op) (wid : ℕ) : (b.next wid op).phase = (r.next n op).completed % 2 ^ 32 := by
  have hends := h.ends_iff hsize hlawful hkept
  have hphase := h.phase
  cases hover : b.ends op with
  | false =>
    have hsame : (r.next n op).completed = r.completed := by
      by_contra hne
      rw [hends.mpr hne] at hover
      cases hover
    simp [WarpBarrier.next, hover, hsame, hphase]
  | true =>
    have hnext := (r.next_completed n op).resolve_left (hends.mp hover)
    simp [WarpBarrier.next, hover, hnext, hphase, add32]

theorem next (h : b.InRound n r) (hn : 0 < n) (hsize : n < 2 ^ 32) (hlawful : r.Lawful n op)
    (hkept : r.Kept op) (wid : ℕ) : (b.next wid op).InRound n (r.next n op) := by
  have hphase := h.next_phase hsize hlawful hkept wid
  have hpending := h.pending
  cases op with
  | sync count | arrive count =>
    obtain ⟨rfl, hlt⟩ := hlawful
    refine settled hn hlt hpending ?_ h.events hphase
    exact congrArg (· % count) (h.add32_count hsize hlt)
  | release => exact settled hn h.arrived (by omega) h.count (congrArg (· - 1) h.events) hphase
  | expectTx count =>
    have hroom : r.pending + count < 2 ^ 32 := hkept
    have hlt : r.arrived < n := hlawful
    refine ⟨h.count, ?_, hphase, h.arrived, hroom, fun hover => hlt.ne hover.1⟩
    rw [WarpBarrier.next]
    simp only [nextEvents, h.events, add32_of_lt hroom, Round.next]
  | wait phase => exact { h with phase := hphase }

end WarpBarrier.InRound

structure BarrierRounds where
  unit : BarrierUnit
  rounds : ℕ → Round

namespace BarrierRounds

section
variable [BarrierConfig] (activeWarps : WarpMask) (participants : ℕ → ℕ)

def reset : BarrierRounds := ⟨.reset, fun _ => {}⟩

def step (s : BarrierRounds) (a : BarAction) : Option (BarrierRounds × Bool × Bool) := do
  let (u, _) ← s.unit.act activeWarps a
  let barId := a.barId
  let round := (s.rounds barId).next (participants barId) a.op
  some (⟨u, update s.rounds barId round⟩,
    decide ((u.barriers barId).phase ≠ (s.unit.barriers barId).phase),
    decide (round.completed ≠ (s.rounds barId).completed))

def Lawful (s : BarrierRounds) (a : BarAction) : Prop :=
  a.Local ∧ (s.rounds a.barId).Lawful (participants a.barId) a.op

def Kept (s : BarrierRounds) (a : BarAction) : Prop := (s.rounds a.barId).Kept a.op

instance (s : BarrierRounds) (a : BarAction) : Decidable (s.Lawful participants a) :=
  inferInstanceAs (Decidable (_ ∧ _))

instance (s : BarrierRounds) (a : BarAction) : Decidable (s.Kept a) :=
  inferInstanceAs (Decidable (Round.Kept _ _))

theorem step_eq {s : BarrierRounds} {a : BarAction} (hlocal : a.Local)
    (ha : (s.unit.barriers a.barId).allows a.op) :
    let b := s.unit.barriers a.barId
    let round := (s.rounds a.barId).next (participants a.barId) a.op
    s.step activeWarps participants a = some (
      ⟨⟨update s.unit.barriers a.barId (b.next a.wid a.op)⟩,
        update s.rounds a.barId round⟩,
      b.ends a.op, decide (round.completed ≠ (s.rounds a.barId).completed)) := by
  have hact : s.unit.act activeWarps a = _ := BarrierUnit.act_eq hlocal ha
  simp only [step, hact, Option.bind_eq_bind, Option.bind_some, update_self,
    WarpBarrier.next_phase_ne]

theorem step_inRound (hpos : ∀ i, 0 < participants i) (hsize : ∀ i, participants i < 2 ^ 32)
    (s : BarrierRounds)
    (a : BarAction) (h : ∀ i, (s.unit.barriers i).InRound (participants i) (s.rounds i))
    (hlawful : s.Lawful participants a ∧ s.Kept a) :
    ∃ s' o, s.step activeWarps participants a = some (s', o) ∧
      (∀ i, (s'.unit.barriers i).InRound (participants i) (s'.rounds i)) ∧ o.1 = o.2 := by
  obtain ⟨⟨hlocal, hlawful⟩, hkept⟩ := hlawful
  have hin := h a.barId
  refine ⟨_, _, step_eq activeWarps participants hlocal (hin.allows (hpos _) hlawful),
    fun i => ?_, ?_⟩
  · by_cases hi : i = a.barId
    · subst hi
      simpa only [update_self] using hin.next (hpos _) (hsize _) hlawful hkept a.wid
    · simpa only [update_of_ne hi] using h i
  · exact Bool.eq_iff_iff.mpr
      ((hin.ends_iff (hsize _) hlawful hkept).trans decide_eq_true_iff.symm)

/-- With at least one participant of each barrier, and no transactions that drain before anybody
has arrived, the phase of a barrier moves exactly when a round of it is over. -/
theorem phase_follows_rounds (hpos : ∀ i, 0 < participants i)
    (hsize : ∀ i, participants i < 2 ^ 32) {actions : List BarAction}
    (hlawful : Along (step activeWarps participants) (fun s a => s.Lawful participants a ∧
      s.Kept a)
      reset actions) :
    ∃ s outs, run (step activeWarps participants) reset actions = some (s, outs) ∧
      List.Forall₂ (fun _ o => o.1 = o.2) actions outs ∧
      ∀ i, (s.unit.barriers i).phase = (s.rounds i).completed % 2 ^ 32 := by
  have hreset (i : ℕ) : WarpBarrier.InRound (participants i) {} {} :=
    ⟨(Nat.zero_mod _).symm, rfl, rfl, Nat.zero_le _, by norm_num, fun h => (hpos i).ne h.1⟩
  obtain ⟨s, outs, hrun, hs, houts⟩ := run_invariant
    (I := fun s : BarrierRounds => ∀ i, (s.unit.barriers i).InRound (participants i) (s.rounds i))
    (P := fun _ o => o.1 = o.2) (step_inRound activeWarps participants hpos hsize) hreset hlawful
  exact ⟨s, outs, hrun, houts, fun i => (hs i).phase⟩

end

/-- Two participants and a transaction that ends between the arrivals. -/
theorem phase_follows_rounds_pair :
    letI : BarrierConfig := ⟨4, 8⟩
    let actions :=
  [BarAction.bar ⟨.barArrive, 0, 0, 2 ^ 31 + 1⟩, .bar ⟨.barArrive, 0, 0, 2⟩, .release 0,
      .bar ⟨.bar, 1, 0, 2⟩]
    ∃ s outs, run (step {0, 1} fun _ => 2) reset actions = some (s, outs) ∧
      List.Forall₂ (fun _ o => o.1 = o.2) actions outs ∧
      ∀ i, (s.unit.barriers i).phase = (s.rounds i).completed % 2 ^ 32 :=
  @phase_follows_rounds ⟨4, 8⟩ {0,
    1} (fun _ => 2) (fun _ => by decide) (fun _ => by decide) _ (by decide +kernel)

/-- The transaction ends before anybody has arrived: the phase moves, and no round is over. -/
theorem phase_moves_before_arrivals :
    letI : BarrierConfig := ⟨4, 8⟩
    let actions := [BarAction.bar ⟨.barArrive, 0, 0, 2 ^ 31 + 1⟩, .release 0]
    Along (step {0, 1} fun _ => 2) (fun s a => s.Lawful (fun _ => 2) a) reset actions ∧
    (run (step {0, 1} fun _ => 2) reset actions).map Prod.snd =
      some [(false, false), (true, false)] := by
  decide +kernel

end BarrierRounds

end VortexGpu.Simx

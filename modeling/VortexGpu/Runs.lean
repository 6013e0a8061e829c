import Mathlib.Data.List.Forall2

/-!
# Runs of a partial step function

A component is given by a function from a state and an action to the next state and an output;
`none` is a step it leaves undefined. `Along C` says that every action meets the condition `C` in
the state in which it is taken, and the invariant rule turns one step lemma into a statement about
all runs that meet the condition.
-/

namespace Runs

variable {σ α β : Type} {step : σ → α → Option (σ × β)} {C : σ → α → Prop}

def run (step : σ → α → Option (σ × β)) : σ → List α → Option (σ × List β)
  | s, [] => some (s, [])
  | s, a :: as => do
    let (s', b) ← step s a
    let (t, bs) ← run step s' as
    some (t, b :: bs)

def Along (step : σ → α → Option (σ × β)) (C : σ → α → Prop) :
    σ → List α → Prop
  | _, [] => True
  | s, a :: as => C s a ∧ ∀ r ∈ step s a, Along step C r.1 as

instance Along.decidable [∀ s a, Decidable (C s a)] :
    ∀ (s : σ) (as : List α), Decidable (Along step C s as)
  | _, [] => .isTrue trivial
  | s, a :: as =>
    have : Decidable (∀ r ∈ step s a, Along step C r.1 as) :=
      match step s a with
      | none => .isTrue (by simp)
      | some r =>
        have := Along.decidable r.1 as
        decidable_of_iff (Along step C r.1 as) (by simp)
    inferInstanceAs (Decidable (_ ∧ _))

variable {s : σ} {as : List α} {I : σ → Prop}

theorem Along.of_forall (h : ∀ s a, C s a) : Along step C s as := by
  induction as generalizing s with
  | nil => trivial
  | cons a as ih => exact ⟨h s a, fun r _ => ih⟩

theorem run_cons {s' : σ} {a : α} {b : β} (as : List α) (h : step s a = some (s', b)) :
    run step s (a :: as) = (run step s' as).map (fun r => (r.1, b :: r.2)) := by
  cases hr : run step s' as with
  | none | some r => simp [run, h, hr]

/-- The invariant rule: one step keeps `I` and gives an output that fits its action. -/
theorem run_invariant {P : α → β → Prop}
    (hstep : ∀ s a, I s → C s a → ∃ s' b, step s a = some (s', b) ∧ I s' ∧ P a b)
    (hs : I s) (hC : Along step C s as) :
    ∃ t bs, run step s as = some (t, bs) ∧ I t ∧ List.Forall₂ P as bs := by
  induction as generalizing s with
  | nil => exact ⟨s, [], rfl, hs, .nil⟩
  | cons a as ih =>
    obtain ⟨hCa, hrest⟩ := hC
    obtain ⟨s', b, hb, hs', hP⟩ := hstep s a hs hCa
    obtain ⟨t, bs, hrun, ht, hbs⟩ := ih hs' (hrest (s', b) hb)
    refine ⟨t, b :: bs, ?_, ht, .cons hP hbs⟩
    rw [run_cons as hb, hrun]
    rfl

theorem run_keeps (hstep : ∀ s a, I s → C s a → ∃ s' b, step s a = some (s', b) ∧ I s')
    (hs : I s) (hC : Along step C s as) : ∃ t bs, run step s as = some (t, bs) ∧ I t := by
  obtain ⟨t, bs, hrun, ht, _⟩ := run_invariant (P := fun _ _ => True)
    (fun s a hs hCa => by
      obtain ⟨s', b, hb, hs'⟩ := hstep s a hs hCa
      exact ⟨s', b, hb, hs', trivial⟩) hs hC
  exact ⟨t, bs, hrun, ht⟩

/-- The rule for steps that may be undefined: what every defined step keeps holds in
every state a run reaches. -/
theorem run_reaches (hstep : ∀ s a s' b, I s → C s a → step s a = some (s', b) → I s')
    {t : σ} {bs : List β} (hs : I s) (hC : Along step C s as)
    (hrun : run step s as = some (t, bs)) : I t := by
  induction as generalizing s bs with
  | nil =>
    cases hrun
    exact hs
  | cons a as ih =>
    obtain ⟨hCa, hrest⟩ := hC
    cases hb : step s a with
    | none => simp [run, hb] at hrun
    | some r =>
      rw [run_cons as hb] at hrun
      obtain ⟨⟨t', bs'⟩, hrun', heq⟩ := Option.map_eq_some_iff.mp hrun
      cases heq
      exact ih (hstep s a r.1 r.2 hs hCa hb) (hrest r hb) hrun'

/-- The rule for progress: a run that meets the condition leads to the goal if outside of it a step
can lower the rank. -/
theorem run_until {G : σ → Prop} (rank : σ → ℕ) (hstep : ∀ s, I s → ¬ G s →
      ∃ a s' b, C s a ∧ step s a = some (s', b) ∧ I s' ∧ rank s' < rank s)
    (hs : I s) : ∃ as t bs, Along step C s as ∧ run step s as = some (t, bs) ∧ I t ∧
    G t := by
  induction hr : rank s using Nat.strongRecOn generalizing s with
  | ind n ih =>
    by_cases hG : G s
    · exact ⟨[], s, [], trivial, rfl, hs, hG⟩
    obtain ⟨a, s', b, hC, hb, hs', hlt⟩ := hstep s hs hG
    obtain ⟨as, t, bs, halong, hrun, ht, hgoal⟩ := ih (rank s') (hr ▸ hlt) hs' rfl
    refine ⟨a :: as, t, b :: bs, ⟨hC, fun r hr => ?_⟩, ?_, ht, hgoal⟩
    · cases hb.symm.trans hr
      exact halong
    · rw [run_cons as hb, hrun]
      rfl

/-! Clocked machines. The environment may stall them at will: `awaited` counts the clocks of a run
in which the handshake arrives that the state waits for. -/

section Clocked
variable (next : σ → α → σ) (shake stop : σ → α → Bool)

def awaited : σ → List α → ℕ
  | _, [] => 0
  | s, a :: as => (shake s a).toNat + awaited (next s a) as

def stops : σ → List α → Bool
  | _, [] => false
  | s, a :: as => stop s a || stops (next s a) as

variable {next shake stop}

theorem awaited_replicate {a : α} (h : ∀ s, shake s a = true) (n : ℕ) :
    awaited next shake s (.replicate n a) = n := by
  induction n generalizing s with
  | zero => rfl
  | succ n ih => simp [List.replicate_succ, awaited, h, ih, Nat.add_comm]

/-- The rule for progress under stalls: if no clock raises the rank and every awaited handshake
lowers it, as many handshakes as the rank end the run. -/
theorem stops_of_awaited (rank : σ → ℕ) (hpos : ∀ s, I s → 0 < rank s)
    (hstep : ∀ s a, I s → stop s a = true ∨
      I (next s a) ∧ rank (next s a) + (shake s a).toNat ≤ rank s)
    (hs : I s) (hcount : rank s ≤ awaited next shake s as) : stops next stop s as = true := by
  induction as generalizing s with
  | nil => exact absurd (hpos s hs) (by simpa [awaited] using hcount)
  | cons a as ih =>
    rw [stops, Bool.or_eq_true]
    refine (hstep s a hs).imp_right fun ⟨hI, hrank⟩ => ih hI ?_
    rw [awaited] at hcount
    omega

end Clocked

def Reaches (step : σ → α → Option (σ × β)) (s t : σ) : Prop :=
  ∃ as bs, run step s as = some (t, bs)

namespace Reaches
variable {s t u : σ} {a : α} {b : β}

theorem refl (s : σ) : Reaches step s s := ⟨[], [], rfl⟩

theorem head (h : step s a = some (t, b)) (hr : Reaches step t u) : Reaches step s u := by
  obtain ⟨as, bs, hrun⟩ := hr
  refine ⟨a :: as, b :: bs, ?_⟩
  rw [run_cons as h, hrun]
  rfl

theorem trans (h : Reaches step s t) (hr : Reaches step t u) : Reaches step s u := by
  obtain ⟨as, bs, hrun⟩ := h
  induction as generalizing s bs with
  | nil =>
    cases hrun
    exact hr
  | cons a as ih =>
    cases hb : step s a with
    | none => simp [run, hb] at hrun
    | some r =>
      rw [run_cons as hb] at hrun
      obtain ⟨⟨t', bs'⟩, hrun', heq⟩ := Option.map_eq_some_iff.mp hrun
      cases heq
      exact head hb (ih bs' hrun')

end Reaches

end Runs

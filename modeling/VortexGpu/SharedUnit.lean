import Mathlib.Data.List.Basic
import Mathlib.Data.Nat.Basic

/-!
# A unit that serves one command at a time

A unit is clocked with the command it is offered, if any, and the input of its environment, and says
which operations it does and whether it is done. `Serves` is the contract: an idle unit takes what
it is offered, a busy one does not look at it and works on its own command until it is done.
`Tracked` follows a unit with a log of the work it has finished.
-/

namespace SharedUnit
open List

variable {σ κ ι ο : Type}

structure Serves (clock : σ → Option κ → ι → σ × List ο × Bool) (idle : σ → Bool)
    (Busy : κ → List ο → σ → Prop) (Done : κ → List ο → Prop) : Prop where
  rests : ∀ s i, idle s = true → (clock s none i).2 = ([], false) ∧
    idle (clock s none i).1 = true
  accepts : ∀ s c i, idle s = true → (clock s (some c) i).2 = ([], false) ∧
    Busy c [] (clock s (some c) i).1
  works : ∀ s g i c ops, Busy c ops s →
    (clock s g i).2.2 = false ∧ Busy c (ops ++ (clock s g i).2.1) (clock s g i).1 ∨
    (clock s g i).2.2 = true ∧ Done c (ops ++ (clock s g i).2.1) ∧ idle (clock s g i).1 = true
  busy : ∀ s c ops, Busy c ops s → idle s = false

structure Running (κ ο : Type) where
  cmd : κ
  began : ℕ
  ops : List ο

structure Job (κ ο : Type) where
  cmd : κ
  began : ℕ
  ops : List ο
  ended : ℕ

structure Tracked (σ κ ο : Type) where
  state : σ
  current : Option (Running κ ο)
  log : List (Job κ ο)

namespace Tracked
variable (clock : σ → Option κ → ι → σ × List ο × Bool) (idle : σ → Bool)

def done (u : Tracked σ κ ο) (g : Option κ) (i : ι) : Bool := (clock u.state g i).2.2

def next (u : Tracked σ κ ο) (t : ℕ) (g : Option κ) (i : ι) : Tracked σ κ ο :=
  let r := clock u.state g i
  if idle u.state then ⟨r.1, g.map (⟨·, t, []⟩), u.log⟩
  else match u.current with
    | none => ⟨r.1, none, u.log⟩
    | some j =>
      if r.2.2 then ⟨r.1, none, u.log ++ [⟨j.cmd, j.began, j.ops ++ r.2.1, t⟩]⟩
      else ⟨r.1, some ⟨j.cmd, j.began, j.ops ++ r.2.1⟩, u.log⟩

variable (Busy : κ → List ο → σ → Prop) (Done : κ → List ο → Prop)

structure Ok (t : ℕ) (u : Tracked σ κ ο) : Prop where
  rest : u.current = none → idle u.state = true
  busy : ∀ j ∈ u.current, Busy j.cmd j.ops u.state ∧ j.began < t ∧ ∀ x ∈ u.log,
    x.ended < j.began
  done : ∀ x ∈ u.log, Done x.cmd x.ops ∧ x.began < x.ended ∧ x.ended < t
  apart : u.log.Pairwise fun x y => x.ended < y.began

variable {clock idle Busy Done} {t : ℕ} {u : Tracked σ κ ο}

section Clocks
variable {g : Option κ} {i : ι} {j : Running κ ο}

theorem next_idle (hidle : idle u.state = true) :
    u.next clock idle t g i = ⟨(clock u.state g i).1, g.map (⟨·, t, []⟩), u.log⟩ := by
  simp [next, hidle]

theorem next_works (hidle : idle u.state = false) (hc : u.current = some j)
    (hd : (clock u.state g i).2.2 = false) : u.next clock idle t g i =
      ⟨(clock u.state g i).1, some ⟨j.cmd, j.began, j.ops ++ (clock u.state g i).2.1⟩,
        u.log⟩ := by
  simp [next, hidle, hc, hd]

theorem next_ends (hidle : idle u.state = false) (hc : u.current = some j)
    (hd : (clock u.state g i).2.2 = true) : u.next clock idle t g i =
      ⟨(clock u.state g i).1, none,
        u.log ++ [⟨j.cmd, j.began, j.ops ++ (clock u.state g i).2.1, t⟩]⟩ := by
  simp [next, hidle, hc, hd]

end Clocks

/-- The three things a clock can be: the unit takes or passes over an offer, goes on, or ends. -/
theorem next_cases (hs : Serves clock idle Busy Done) (h : u.Ok idle Busy Done t) (g : Option κ)
    (i : ι) : u.current = none ∧ u.done clock g i = false ∧
        (u.next clock idle t g i).current = g.map (⟨·, t, []⟩) ∧
        (u.next clock idle t g i).log = u.log ∨ ∃ j ops, u.current = some j ∧
      (u.done clock g i = false ∧ (u.next clock idle t g i).current =
        some ⟨j.cmd, j.began, ops⟩ ∧ (u.next clock idle t g i).log = u.log ∨
        u.done clock g i = true ∧ (u.next clock idle t g i).current = none ∧
          (u.next clock idle t g i).log = u.log ++ [⟨j.cmd, j.began, ops, t⟩]) := by
  cases hc : u.current with
  | none =>
    have hidle := h.rest hc
    rw [next_idle hidle]
    refine .inl ⟨rfl, ?_, rfl, rfl⟩
    cases g with
    | none => simp [done, (hs.rests _ i hidle).1]
    | some c => simp [done, (hs.accepts _ c i hidle).1]
  | some j =>
    have hidle := hs.busy _ _ _ (h.busy j hc).1
    refine .inr ⟨j, j.ops ++ (clock u.state g i).2.1, rfl, ?_⟩
    cases hd : (clock u.state g i).2.2 with
    | false =>
      rw [next_works hidle hc hd]
      exact .inl ⟨hd, rfl, rfl⟩
    | true =>
      rw [next_ends hidle hc hd]
      exact .inr ⟨hd, rfl, rfl⟩

theorem ok_next (hs : Serves clock idle Busy Done) (h : u.Ok idle Busy Done t) (g : Option κ)
    (i : ι) : (u.next clock idle t g i).Ok idle Busy Done (t + 1) := by
  have hlog : ∀ x ∈ u.log, Done x.cmd x.ops ∧ x.began < x.ended ∧ x.ended < t + 1 :=
    fun x hx =>
    let ⟨hdone, hlt, hend⟩ := h.done x hx
    ⟨hdone, hlt, Nat.lt_succ_of_lt hend⟩
  cases hc : u.current with
  | none =>
    have hidle := h.rest hc
    rw [next_idle hidle]
    cases g with
    | none => exact ⟨fun _ => (hs.rests _ i hidle).2, fun j hj => (by cases hj), hlog, h.apart⟩
    | some c =>
      refine ⟨fun hn => (by cases hn), fun j hj => ?_, hlog, h.apart⟩
      cases hj
      exact ⟨(hs.accepts _ c i hidle).2, Nat.lt_succ_self t, fun x hx => (h.done x hx).2.2⟩
  | some j =>
    obtain ⟨hbusy, hbegan, hbehind⟩ := h.busy j hc
    have hidle := hs.busy _ _ _ hbusy
    rcases hs.works _ g i _ _ hbusy with ⟨hd, hwork⟩ | ⟨hd, hdone, hrest⟩
    · rw [next_works hidle hc hd]
      refine ⟨fun hn => (by cases hn), fun j' hj => ?_, hlog, h.apart⟩
      cases hj
      exact ⟨hwork, Nat.lt_succ_of_lt hbegan, hbehind⟩
    · rw [next_ends hidle hc hd]
      refine ⟨fun _ => hrest, fun j' hj => (by cases hj), ?_, ?_⟩
      · exact forall_mem_append.mpr
          ⟨hlog, forall_mem_singleton.mpr ⟨hdone, hbegan, Nat.lt_succ_self t⟩⟩
      · refine pairwise_append.mpr ⟨h.apart, pairwise_singleton _ _, fun x hx y hy => ?_⟩
        rw [mem_singleton.mp hy]
        exact hbehind x hx

end Tracked

theorem filter_within {log : List (Job κ ο)} (hspan : ∀ x ∈ log, x.began < x.ended)
    (hapart : log.Pairwise fun x y => x.ended < y.began) {x : Job κ ο} (hx : x ∈ log) :
    (log.filter fun y => decide (x.began ≤ y.began ∧ y.ended ≤ x.ended)) = [x] := by
  induction log with
  | nil => cases hx
  | cons y log ih =>
    obtain ⟨hy, hlog⟩ := pairwise_cons.mp hapart
    have hrest := forall_mem_of_forall_mem_cons hspan
    have hbegan : y.began < y.ended := hspan y mem_cons_self
    rcases mem_cons.mp hx with rfl | hmem
    · have hnone : (log.filter fun y => decide (x.began ≤ y.began ∧ y.ended ≤ x.ended)) =
          [] := by
        refine filter_eq_nil_iff.mpr fun z hz => ?_
        have hz₁ := hy z hz
        have hz₂ := hrest z hz
        simp only [decide_eq_true_eq]
        omega
      rw [filter_cons, hnone, if_pos (by simp)]
    · have hz := hy x hmem
      rw [filter_cons, if_neg (by simp only [decide_eq_true_eq]; omega), ih hrest hlog hmem]

end SharedUnit

import VortexGpu.LeastRecent

/-!
# The matrix and the greedy-then-oldest arbiters

`VX_matrix_arbiter` and `VX_gto_arbiter` store one half of a relation between the requesters
(`state` and `rank_matrix`) and put the grantee of an accepted grant below all others. A run also
records the grants accepted since reset, the newest first.
-/

namespace VortexGpu.Rtl
open Subsingleton (elim)
open LeastRecent List Finset

inductive ArbiterKind
  | matrix (sticky : Bool) | gto

structure Arbiter (n : ℕ) where
  state : Fin n → Fin n → Bool
  prevGrant : Fin n → Bool

namespace Arbiter

variable {n : ℕ} (k : ArbiterKind) (s : Arbiter n) (requests : Fin n → Bool)

/-- The relation whose half above the diagonal is stored. -/
def outranks (i j : Fin n) : Bool :=
  if i < j then s.state i j else if i > j then !s.state j i else false

def pri (r c : Fin n) : Bool :=
  if r > c then requests c && s.state c r else if r < c then requests c && !s.state r c else false

def dominates (i j : Fin n) : Bool := if i = j then true else s.outranks i j || !requests j

def grant (i : Fin n) : Bool :=
  match k with
  | .matrix _ => requests i && !decide (∃ c, s.pri requests i c)
  | .gto => requests i && decide (∀ j, s.dominates requests i j)

def retainGrant : Bool :=
  match k with
  | .matrix sticky => sticky && decide (∃ i, s.prevGrant i && requests i)
  | .gto => decide (∃ i, s.prevGrant i && requests i)

def grantOnehot : Fin n → Bool :=
  if n = 1 then requests else if s.retainGrant k requests then s.prevGrant else s.grant k requests

def grantValid : Bool :=
  match k with
  | .matrix false => decide (∃ i, s.grantOnehot k requests i)
  | _ => decide (∃ i, requests i)

def reset : Arbiter n where
  state _ _ := match k with
    | .matrix _ => false
    | .gto => true
  prevGrant _ := false

/-- The stored half after an accepted grant. -/
def served (r c : Fin n) : Bool :=
  match k with
  | .matrix _ =>
    if s.retainGrant k requests then s.state r c
    else (s.state r c || s.grant k requests c) && !s.grant k requests r
  | .gto =>
    if s.grantOnehot k requests r then false else if s.grantOnehot k requests c then true
      else s.state r c

def clock (grantReady : Bool) : Arbiter n :=
  if s.grantValid k requests && grantReady then ⟨s.served k requests, s.grantOnehot k requests⟩
  else s

/-- The inputs of the clocks since reset, the newest first, and the grants they accept. -/
def run : List ((Fin n → Bool) × Bool) → Arbiter n × List (Fin n → Bool)
  | [] => (reset k, [])
  | (requests, grantReady) :: inputs =>
    let (s, log) := run inputs
    (s.clock k requests grantReady,
      if s.grantValid k requests && grantReady then s.grantOnehot k requests :: log else log)

structure Inv (log : List (Fin n → Bool)) : Prop where
  follows : Follows (fun i j => s.outranks i j = true) log
  prev : s.prevGrant = log.headD fun _ => false

variable {k s requests} {s' : Arbiter n} {g i : Fin n} {log : List (Fin n → Bool)}

theorem grant_iff : s.grant k requests i = true ↔
    requests i = true ∧ ∀ j ≠ i, requests j = true → s.outranks i j = true := by
  cases k with
  | matrix sticky =>
    have hpri : ∀ j,
        s.pri requests i j = (requests j && decide (j ≠ i) && !s.outranks i j) := by
      intro j
      unfold pri outranks
      rcases lt_trichotomy i j with h | rfl | h
      · simp [h, h.not_gt, h.ne']
      · simp
      · simp [h, h.not_gt, h.ne]
    simp only [grant, hpri]
    grind
  | gto =>
    simp only [grant, dominates]
    grind

theorem outranks_demote
    (h : ∀ i j, s'.state i j = ((s.state i j || decide (j = g)) && !decide (i = g)))
    (i j : Fin n) : s'.outranks i j = true ↔ i ≠ g ∧ (j = g ∨ s.outranks i j = true) := by
  unfold outranks
  rcases lt_trichotomy i j with hlt | rfl | hlt
  · simp [hlt, h, and_comm, or_comm]
  · simp
  · simp only [hlt, hlt.not_gt, h]
    grind

theorem Inv.reset : Inv (n := n) (reset k) [] := by
  refine ⟨.nil ?_, rfl⟩
  cases k with
  | matrix sticky =>
    have : (fun i j : Fin n => (Arbiter.reset (.matrix sticky)).outranks i j = true) =
        (· > ·) := by
      funext i j
      simp only [outranks, Arbiter.reset]
      grind
    exact this ▸ inferInstance
  | gto =>
    have : (fun i j : Fin n => (Arbiter.reset .gto).outranks i j = true) = (· < ·) := by
      funext i j
      simp only [outranks, Arbiter.reset]
      grind
    exact this ▸ inferInstance

/-- A retained grantee is the last one served. -/
theorem Inv.retained (h : s.Inv log) (hr : s.retainGrant k requests = true) :
    ∃ g rest, log = only g :: rest ∧ s.prevGrant = only g ∧ requests g = true := by
  obtain ⟨i, hp, hi⟩ : ∃ i, s.prevGrant i = true ∧ requests i = true := by
    cases k with
    | matrix sticky => simpa using (Bool.and_eq_true_iff.mp hr).2
    | gto => simpa [retainGrant] using hr
  obtain ⟨hfollows, hprev⟩ := h
  cases log with
  | nil => simp [hprev] at hp
  | cons v rest =>
    obtain ⟨g, rfl⟩ := hfollows.single v mem_cons_self
    rw [hprev] at hp
    obtain rfl : i = g := of_decide_eq_true hp
    exact ⟨i, rest, rfl, hprev, hi⟩

theorem Inv.granted (h : s.Inv log) (hi : requests i = true) :
    ∃ g, s.grantOnehot k requests = only g ∧ requests g = true ∧
      (s.retainGrant k requests = false → ∀ j ≠ g, requests j = true →
        s.outranks g j = true) := by
  unfold grantOnehot
  split_ifs with hn hr
  · subst hn
    refine ⟨i, funext fun j => ?_, hi, fun _ j hj => absurd (elim j i) hj⟩
    rw [elim j i, hi, only, decide_eq_true rfl]
  · obtain ⟨g, _, _, hprev, hg⟩ := h.retained hr
    exact ⟨g, hprev, hg, fun hf => absurd (hr.symm.trans hf) (Bool.noConfusion)⟩
  · have := h.follows.order
    obtain ⟨g, hg, hfirst⟩ := h.follows.first hi
    refine ⟨g, funext fun j => Bool.eq_iff_iff.mpr ?_, hg, fun _ => hfirst⟩
    rw [grant_iff, only, decide_eq_true_eq]
    constructor
    · rintro ⟨hj, hall⟩
      by_contra hne
      exact asymm_of (fun i j => s.outranks i j = true) (hfirst j hne hj) (hall g (Ne.symm hne) hg)
    · rintro rfl
      exact ⟨hg, hfirst⟩

theorem Inv.valid_iff (h : s.Inv log) : s.grantValid k requests = true ↔ ∃ i,
    requests i = true := by
  unfold grantValid
  split
  · rw [decide_eq_true_eq]
    constructor
    · rintro ⟨i, hi⟩
      refine ⟨i, ?_⟩
      simp only [grantOnehot, retainGrant, Bool.false_and, Bool.false_eq_true, if_false] at hi
      split at hi
      · exact hi
      · exact (grant_iff.mp hi).1
    · rintro ⟨i, hi⟩
      obtain ⟨g, hg, _⟩ := h.granted hi
      exact ⟨g, by rw [hg, only, decide_eq_true rfl]⟩
  · rw [decide_eq_true_eq]

theorem Inv.accept (h : s.Inv log) (hi : requests i = true) :
    Inv ⟨s.served k requests, s.grantOnehot k requests⟩ (s.grantOnehot k requests :: log) := by
  obtain ⟨g, hg, _⟩ := h.granted (k := k) hi
  refine ⟨?_, rfl⟩
  rw [hg]
  refine h.follows.serve fun i j => ?_
  by_cases hn : n = 1
  · subst hn
    simp [elim i g, elim j g, outranks]
  cases k with
  | matrix sticky =>
    by_cases hr : s.retainGrant (.matrix sticky) requests = true
    · -- the order stays: the grantee is the last one already
      obtain ⟨g', rest, rfl, hprev, _⟩ := h.retained hr
      have hsame : only g = only g' := by rw [← hg, grantOnehot, if_neg hn, if_pos hr, hprev]
      obtain rfl : g = g' := of_decide_eq_true ((congrFun hsame g).symm.trans (decide_eq_true rfl))
      simpa [outranks, served, hr] using h.follows.last i j
    · rw [grantOnehot, if_neg hn, if_neg hr] at hg
      exact outranks_demote (fun i j => by simp [served, hr, hg, only]) i j
  | gto =>
    refine outranks_demote (fun i j => ?_) i j
    simp only [served, hg, only]
    grind

theorem run_inv (inputs : List ((Fin n → Bool) × Bool)) :
    (run k inputs).1.Inv (run k inputs).2 := by
  induction inputs with
  | nil => exact .reset
  | cons a inputs ih =>
    simp only [run, clock]
    split
    · next hfire =>
      obtain ⟨i, hi⟩ := ih.valid_iff.mp (Bool.and_eq_true_iff.mp hfire).1
      exact ih.accept hi
    · exact ih

/-- After every history of requests and grant-ready inputs the stored bits are a strict total order,
and whoever requests, one requester is granted. Unless the previous grantee is retained, it is the
one whose last accepted grant is oldest, where those that never had one come first. -/
theorem serves_oldest (k : ArbiterKind) (inputs : List ((Fin n → Bool) × Bool)) :
    let (s, log) := run k inputs
    IsStrictTotalOrder (Fin n) (fun i j => s.outranks i j = true) ∧ ∀ requests,
      (∃ i, requests i = true) →
      s.grantValid k requests = true ∧ ∃ g, s.grantOnehot k requests = only g ∧
      requests g = true ∧ (s.retainGrant k requests = false → ∀ j ≠ g, requests j = true →
          age log j < age log g ∨ ∀ v ∈ log, v g = false ∧ v j = false) := by
  have hinv := run_inv (k := k) inputs
  refine ⟨hinv.follows.order,
    fun requests ⟨i, hi⟩ => ⟨hinv.valid_iff.mpr ⟨i, hi⟩, ?_⟩⟩
  obtain ⟨g, hg, hreq, hfirst⟩ := hinv.granted hi
  exact ⟨g, hg, hreq, fun hr j hj hreqj => hinv.follows.older (hfirst hr j hj hreqj)⟩

/-- The matrix arbiter whose grant is not sticky. -/
abbrev fair : ArbiterKind := .matrix false

def ahead (s : Arbiter n) (i : Fin n) : Finset (Fin n) := {j | s.outranks j i = true}

/-- A grant to another takes one requester out of those ahead of `i`. -/
theorem Inv.ahead_accept (h : s.Inv log) (hi : requests i = true)
    (hother : s.grantOnehot fair requests i = false) :
    (ahead ⟨s.served fair requests, s.grantOnehot fair requests⟩ i).card <
      (s.ahead i).card := by
  obtain ⟨g, hg, _, hfirst⟩ := h.granted (k := fair) hi
  have hne : i ≠ g := by simpa [hg, only] using hother
  have hn : n ≠ 1 := by
    rintro rfl
    exact hne (elim i g)
  have hgrant : s.grant fair requests = only g := by simpa [grantOnehot, hn, retainGrant] using hg
  have hserved := @outranks_demote n s ⟨s.served fair requests, s.grantOnehot fair requests⟩ g
    fun i j => by simp [served, retainGrant, hgrant, only]
  refine card_lt_card ((ssubset_iff_of_subset ?_).mpr ⟨g, ?_, ?_⟩)
  · intro j hj
    simp only [ahead, mem_filter_univ, hserved] at hj ⊢
    exact hj.2.resolve_left hne
  · simpa [ahead] using hfirst (by simp [retainGrant]) i hne hi
  · simp [ahead, hserved]

section Waiting

variable {recent past : List ((Fin n → Bool) × Bool)} (hreq : ∀ c ∈ recent, c.1 i = true)
include hreq

theorem ahead_run : ∃ new, (run fair (recent ++ past)).2 = new ++ (run fair past).2 ∧
    ((∀ v ∈ new, v i = false) → ((run fair (recent ++ past)).1.ahead i).card + new.length ≤
      ((run fair past).1.ahead i).card) := by
  induction recent with
  | nil => exact ⟨[], rfl, fun _ => le_rfl⟩
  | cons c recent ih =>
    obtain ⟨hc, hrest⟩ := forall_mem_cons.mp hreq
    obtain ⟨new, hlog, hcard⟩ := ih hrest
    simp only [cons_append, run, clock]
    split
    · refine ⟨_ :: new, congrArg _ hlog, fun hnone => ?_⟩
      obtain ⟨hlast, hnew⟩ := forall_mem_cons.mp hnone
      have := (run_inv (recent ++ past)).ahead_accept hc hlast
      have := hcard hnew
      rw [length_cons]
      omega
    · exact ⟨new, hlog, hcard⟩

/-- Of any `n` grants accepted while `i` keeps requesting, one is for `i`. -/
theorem granted_within_round
    (hround : (run fair past).2.length + n ≤ (run fair (recent ++ past)).2.length) :
    ∃ new, (run fair (recent ++ past)).2 = new ++ (run fair past).2 ∧ ∃ v ∈ new,
      v i = true := by
  obtain ⟨new, hlog, hcard⟩ := ahead_run hreq
  refine ⟨new, hlog, by_contra fun hnone => ?_⟩
  have hself : i ∉ (run fair past).1.ahead i := by simp [ahead, outranks]
  have hlt := card_lt_univ_of_notMem hself
  have := hcard (by simpa using hnone)
  rw [hlog, length_append] at hround
  simp only [Fintype.card_fin] at hlt
  omega

end Waiting

theorem granted_within_round_two :
    ∃ new, (run fair [(fun _ => true, true), (fun _ => true, true)]).2 =
    new ++ (run (n := 2) fair []).2 ∧ ∃ v ∈ new, v 0 = true :=
  @granted_within_round 2 0 [(fun _ => true, true), (fun _ => true, true)] [] (by simp) (by decide)

end Arbiter
end VortexGpu.Rtl

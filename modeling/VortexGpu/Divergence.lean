import VortexGpu.WarpCtl
import Mathlib.Data.Fintype.Powerset

/-!
# Divergent regions

The regions between a `SPLIT` and its `JOIN`, as a warp runs through them. A region is open from
its `SPLIT` until a `JOIN` leaves the program counter behind the region; a `JOIN` that sends the
warp back to the start of the region begins another pass over it. `Divergence` keeps the regions
beside the warp, which reads nothing of it.
-/

namespace VortexGpu.Simx
open Runs Finset
variable {n xlen : ℕ}

/-- A region and the passes over it: the mask at the start of the running one, and for each one
before the masks at its start and at its `JOIN`. -/
structure Region (n xlen : ℕ) where
  pc : BitVec xlen
  depth : ℕ
  divergent : Bool
  tmask : ThreadMask n
  stack : List (IpdomEntry n xlen)
  entry : ThreadMask n
  passes : List (ThreadMask n × ThreadMask n)

/-- A region that has been left, with the mask and the stack behind its `JOIN`. -/
structure Visit (n xlen : ℕ) where
  region : Region n xlen
  tmask : ThreadMask n
  stack : List (IpdomEntry n xlen)

/-- `regions` has the innermost first. -/
structure Divergence (n xlen : ℕ) where
  warp : Warp n xlen
  start : ThreadMask n
  regions : List (Region n xlen)
  visits : List (Visit n xlen)

namespace Divergence

section
variable (s : Divergence n xlen)

def entryTmask : ThreadMask n :=
  match s.regions with
  | [] => s.start
  | r :: _ => r.entry

def opened (a : WctlTrace n xlen) (w : Warp n xlen) : Divergence n xlen :=
  { s with
    warp := w
    regions :=
      { pc := a.pc
        depth := s.warp.ipdomStack.length
        divergent := a.isDivergent s.warp.tmask
        tmask := s.warp.tmask
        stack := s.warp.ipdomStack
        entry := w.tmask
        passes := [] } :: s.regions }

def joined (w : Warp n xlen) : Divergence n xlen :=
  match s.regions with
  | [] => { s with warp := w }
  | r :: rest =>
    let r := { r with entry := w.tmask, passes := r.passes ++ [(r.entry, s.warp.tmask)] }
    if w.pc = r.pc + 4 then { s with warp := w, regions := r :: rest }
    else { s with warp := w, regions := rest, visits := ⟨r, w.tmask, w.ipdomStack⟩ :: s.visits }

def step (a : WctlTrace n xlen) : Option (Divergence n xlen × Unit) :=
  (s.warp.process a).map fun w =>
    if a.eop then
      match a.type with
      | .split => (s.opened a w, ())
      | .join => (s.joined w, ())
      | .pred => ({ s with warp := w }, ())
    else ({ s with warp := w }, ())

/-- The instructions are well nested: a `JOIN` belongs to the innermost region and reads what the
`SPLIT` of that region has written to the threads that were active there, and a `PRED` leaves some
of the threads that the running pass has begun with. -/
def Nested (a : WctlTrace n xlen) : Prop :=
  (a.eop = true → a.type = .join → s.regions ≠ [] ∧
    ∀ r ∈ s.regions.head?, a.pc ≠ r.pc ∧ ∀ t ∈ s.warp.tmask, a.rs1 t = r.depth) ∧
  (a.eop = true → a.type = .pred → ∀ m ∈ a.predTmask s.warp.tmask,
    m.Nonempty ∧ m ⊆ s.entryTmask)

end

instance (s : Divergence n xlen) (a : WctlTrace n xlen) : Decidable (s.Nested a) :=
  @instDecidableAnd _ _ inferInstance inferInstance

def initial (m : ThreadMask n) (pc : BitVec xlen) : Divergence n xlen :=
  ⟨⟨true, m, pc, []⟩, m, [], []⟩

end Divergence

namespace Region
variable (r : Region n xlen)

def entries (t : Fin n) : ℕ := (r.passes.filter fun p => decide (t ∈ p.1)).length

/-- The threads that a `PRED` has dropped before the first `JOIN`. -/
def dropped : ThreadMask n :=
  match r.passes with
  | [] => ∅
  | p :: _ => p.1 \ p.2

end Region

structure Visit.Restored (v : Visit n xlen) : Prop where
  stack : v.stack = v.region.stack
  divergent : v.region.divergent = true → v.tmask = v.region.tmask
  uniform : v.region.divergent = false → v.region.passes = [(v.region.tmask, v.tmask)] ∧
    v.tmask ⊆ v.region.tmask
  entries : v.region.divergent = true → ∀ t ∈ v.region.tmask,
    v.region.entries t = if t ∈ v.region.dropped then 2 else 1

structure Divergence.Sound (s : Divergence n xlen) : Prop where
  active : s.warp.active = true
  nonempty : s.warp.tmask.Nonempty
  depth : s.warp.ipdomStack.length + s.warp.tmask.card ≤ n
  visits : ∀ v ∈ s.visits, v.Restored
  outside : s.regions = [] → s.warp.ipdomStack = []

/-- Where the warp may be inside a region, and what the stack then is. -/
inductive Region.Pass (r : Region n xlen) : List (IpdomEntry n xlen) → Prop
  | uniform (hdiv : r.divergent = false) (hentry : r.entry = r.tmask) (hpasses : r.passes = []) :
      Pass r r.stack
  | first (hdiv : r.divergent = true) (hentry : r.entry ⊂ r.tmask) (hpasses : r.passes = []) :
      Pass r (⟨r.tmask, r.pc + 4, false⟩ :: r.stack)
  | second (m j : ThreadMask n) (hdiv : r.divergent = true) (hj : j.Nonempty) (hjm : j ⊆ m)
      (hm : m ⊂ r.tmask) (hpasses : r.passes = [(m, j)]) (hentry : r.entry = r.tmask \ j) :
      Pass r (⟨r.tmask, r.pc + 4, true⟩ :: r.stack)

/-- The open regions with the stack and the mask that the innermost pass has begun with. -/
inductive Chain (start : ThreadMask n) : List (Region n xlen) → List (IpdomEntry n xlen) →
    ThreadMask n → Prop
  | nil : Chain start [] [] start
  | cons {r : Region n xlen} {rest : List (Region n xlen)} {stack : List (IpdomEntry n xlen)}
      {outer : ThreadMask n} (hrest : Chain start rest r.stack outer) (hsub : r.tmask ⊆ outer)
      (hdepth : r.depth = r.stack.length) (hpass : r.Pass stack) :
      Chain start (r :: rest) stack r.entry

variable {stack : List (IpdomEntry n xlen)}

theorem Region.Pass.bound {r : Region n xlen} (h : r.Pass stack) :
    stack.length + r.entry.card ≤ r.stack.length + r.tmask.card := by
  cases h with
  | uniform hdiv hentry => rw [hentry]
  | first hdiv hentry =>
    have hlt := card_lt_card hentry
    simp only [List.length_cons]
    omega
  | second m j hdiv hj hjm hm hpasses hentry =>
    have hcard := card_sdiff_add_card_eq_card (hjm.trans hm.subset)
    have hpos := card_pos.mpr hj
    simp only [List.length_cons, hentry]
    omega

section
variable {start entry : ThreadMask n} {regions : List (Region n xlen)}
  (h : Chain start regions stack entry)
include h

theorem Chain.bound : stack.length + entry.card ≤ n := by
  induction h with
  | nil => simpa using card_le_univ start
  | cons _ hsub _ hpass ih =>
    have hpass := hpass.bound
    have hcard := card_le_card hsub
    omega

theorem Chain.entry_eq (w : Warp n xlen)
    (visits : List (Visit n xlen)) :
    entry = Divergence.entryTmask ⟨w, start, regions, visits⟩ := by
  cases h <;> rfl

end

theorem Region.entries_two {r : Region n xlen} {tmask m j k : ThreadMask n} {t : Fin n}
    (hjm : j ⊆ m) (ht : t ∈ tmask) (hpasses : r.passes = [(m, j), (tmask \ j, k)]) :
    r.entries t = if t ∈ r.dropped then 2 else 1 := by
  simp only [Region.entries, Region.dropped, hpasses, List.filter_cons, List.filter_nil,
    mem_sdiff, ht, true_and, decide_eq_true_eq]
  by_cases hj : t ∈ j
  · simp [hj, hjm hj]
  · by_cases hm : t ∈ m <;> simp [hj, hm]

namespace Divergence
variable {s : Divergence n xlen} {a : WctlTrace n xlen}

structure Inv (s : Divergence n xlen) : Prop where
  active : s.warp.active = true
  nonempty : s.warp.tmask.Nonempty
  within : s.warp.tmask ⊆ s.entryTmask
  chain : Chain s.start s.regions s.warp.ipdomStack s.entryTmask
  visits : ∀ v ∈ s.visits, v.Restored

theorem Inv.sound (h : s.Inv) : s.Sound where
  active := h.active
  nonempty := h.nonempty
  depth := (Nat.add_le_add_left (card_le_card h.within) _).trans h.chain.bound
  visits := h.visits
  outside := by
    intro hnone
    have hchain := h.chain
    rw [hnone] at hchain
    generalize s.warp.ipdomStack = stack, s.entryTmask = entry at hchain
    cases hchain
    rfl

theorem initial_inv {m : ThreadMask n} (hm : m.Nonempty) (pc : BitVec xlen) :
    (initial m pc).Inv where
  active := rfl
  nonempty := hm
  within := Finset.Subset.refl m
  chain := .nil
  visits := fun v hv => by cases hv

end Divergence

namespace WctlTrace
variable {a : WctlTrace n xlen} {m : ThreadMask n}

theorem then_else_card : (a.thenTmask m).card + (a.elseTmask m).card = m.card := by
  rw [thenTmask, elseTmask, ← card_filter_add_card_filter_not (s := m) fun t => a.cond t = true]
  simp

theorem isDivergent_iff : a.isDivergent m = true ↔ (a.thenTmask m).Nonempty ∧
    (a.elseTmask m).Nonempty :=
  decide_eq_true_iff

theorem divergent_card (h : a.isDivergent m = true) : 2 ≤ m.card := by
  obtain ⟨hthen, helse⟩ := isDivergent_iff.mp h
  have hcard := then_else_card (a := a) (m := m)
  have hthen := card_pos.mpr hthen
  have helse := card_pos.mpr helse
  omega

theorem firstTmask_ssubset (h : a.isDivergent m = true) :
    (a.firstTmask m).Nonempty ∧ a.firstTmask m ⊂ m := by
  obtain ⟨hthen, helse⟩ := isDivergent_iff.mp h
  have hcard := then_else_card (a := a) (m := m)
  have helse_pos := card_pos.mpr helse
  unfold firstTmask
  split_ifs
  · refine ⟨hthen,
      Finset.ssubset_iff_subset_ne.mpr ⟨Finset.filter_subset _ _, fun heq => ?_⟩⟩
    rw [heq] at hcard
    omega
  · refine ⟨helse,
      Finset.ssubset_iff_subset_ne.mpr ⟨Finset.filter_subset _ _, fun heq => ?_⟩⟩
    rw [heq] at hcard
    omega

end WctlTrace

namespace Divergence
variable {s : Divergence n xlen} {a : WctlTrace n xlen}

section
variable (h : s.Inv)
include h

theorem Inv.withPc (pc : BitVec xlen) : Inv { s with warp := { s.warp with pc := pc } } :=
  { h with }

theorem Inv.split (htype : a.type = .split) (heop : a.eop = true) :
    ∃ s', s.step a = some (s', ()) ∧ s'.Inv := by
  have hstep : ∀ w, s.warp.process a = some w → s.step a = some (s.opened a w, ()) := by
    intro w hw
    simp [step, htype, hw, heop]
  cases hdiv : a.isDivergent s.warp.tmask with
  | true =>
    obtain ⟨hfirst, hpart⟩ := WctlTrace.firstTmask_ssubset hdiv
    have hroom : s.warp.ipdomStack.length ≠ n - 1 := by
      have hdepth := h.sound.depth
      have htwo := WctlTrace.divergent_card hdiv
      omega
    have hsplit := (Warp.split_divergent heop htype hdiv hroom).trans
      (congrArg some (Warp.setTmask_nonempty h.active hfirst))
    exact ⟨_, hstep _ hsplit,
      { h with
        nonempty := hfirst
        within := Finset.Subset.refl _
        chain := .cons h.chain h.within rfl (.first hdiv hpart rfl) }⟩
  | false =>
    have hsplit := (Warp.split_uniform heop htype hdiv).trans
      (congrArg some (Warp.setTmask_nonempty h.active h.nonempty))
    exact ⟨_, hstep _ hsplit,
      { h with
        within := Finset.Subset.refl _
        chain := .cons h.chain h.within rfl (.uniform hdiv rfl rfl) }⟩

theorem Inv.pred (htype : a.type = .pred) (heop : a.eop = true) (hnested : s.Nested a) :
    ∃ s', s.step a = some (s', ()) ∧ s'.Inv := by
  obtain ⟨m, hm⟩ := a.predTmask_isSome h.nonempty
  obtain ⟨hne, hsub⟩ := hnested.2 heop htype m hm
  have hpred := (Warp.pred_eq heop htype hm).trans
    (congrArg some (Warp.setTmask_nonempty h.active hne))
  refine ⟨_, by simp only [step, htype, hpred, Option.map_some, heop, if_true]; rfl, ?_⟩
  exact { h with nonempty := hne, within := hsub }

theorem Inv.leave {r : Region n xlen} {rest : List (Region n xlen)} {outer m : ThreadMask n}
    {pc : BitVec xlen} (hregions : s.regions = r :: rest) (hrest : Chain s.start rest r.stack outer)
    (hsub : m ⊆ outer) (hm : m.Nonempty) (hpc : pc ≠ r.pc + 4) (hvisit : Visit.Restored
      ⟨{ r with entry := m, passes := r.passes ++ [(r.entry, s.warp.tmask)] }, m, r.stack⟩) :
    Inv (s.joined { s.warp with tmask := m, pc := pc, ipdomStack := r.stack }) := by
  have houter := hrest.entry_eq s.warp s.visits
  simp only [joined, hregions, if_neg hpc]
  exact
    { active := h.active
      nonempty := hm
      within := houter ▸ hsub
      chain := houter ▸ hrest
      visits := by
        intro v hv
        rcases List.mem_cons.mp hv with rfl | hv
        · exact hvisit
        · exact h.visits v hv }

theorem Inv.back {r : Region n xlen} {rest : List (Region n xlen)} {outer m : ThreadMask n}
    {stack : List (IpdomEntry n xlen)} (hregions : s.regions = r :: rest)
    (hrest : Chain s.start rest r.stack outer)
    (hsub : r.tmask ⊆ outer) (hdepth : r.depth = r.stack.length) (hm : m.Nonempty)
    (hpass : Region.Pass { r with entry := m, passes := r.passes ++ [(r.entry, s.warp.tmask)] }
      stack) :
    Inv (s.joined { s.warp with tmask := m, pc := r.pc + 4, ipdomStack := stack }) := by
  simp only [joined, hregions, if_true]
  exact
    { h with
      nonempty := hm
      within := Finset.Subset.refl m
      chain := .cons hrest hsub hdepth hpass }

theorem Inv.join_depth (htype : a.type = .join) (heop : a.eop = true) (hnested : s.Nested a) :
    ∃ k, (∀ t ∈ s.warp.tmask, a.rs1 t = k) ∧
      (k = s.warp.ipdomStack.length ∨ k + 1 = s.warp.ipdomStack.length) := by
  obtain ⟨hopen, hjoin⟩ := hnested.1 heop htype
  have hchain := h.chain
  cases hregions : s.regions with
  | nil => exact absurd hregions hopen
  | cons r rest =>
    obtain ⟨_, hread⟩ := hjoin r (by rw [hregions]; rfl)
    rw [hregions] at hchain
    generalize s.warp.ipdomStack = stack, s.entryTmask = entry at hchain
    cases hchain with
    | cons hrest hsub hdepth hpass =>
    refine ⟨r.depth, hread, ?_⟩
    cases hpass with
    | uniform => exact .inl hdepth
    | first | second => exact .inr (congrArg (· + 1) hdepth)

theorem Inv.join (htype : a.type = .join) (heop : a.eop = true) (hnested : s.Nested a) :
    ∃ s', s.step a = some (s', ()) ∧ s'.Inv := by
  have hstep : ∀ w, s.warp.process a = some w → s.step a = some (s.joined w, ()) := by
    intro w hw
    simp [step, htype, hw, heop]
  obtain ⟨t, hlast⟩ := ThreadMask.last_isSome h.nonempty
  obtain ⟨hopen, hjoin⟩ := hnested.1 heop htype
  have hchain := h.chain
  have hwithin := h.within
  cases hregions : s.regions with
  | nil => exact absurd hregions hopen
  | cons r rest =>
    obtain ⟨hpc, hread⟩ := hjoin r (by rw [hregions]; rfl)
    have hptr := hread t (ThreadMask.last_mem hlast)
    have hpc' : a.pc + 4 ≠ r.pc + 4 := fun heq => hpc ((BitVec.add_left_inj 4).mp heq)
    simp only [entryTmask, hregions] at hwithin hchain
    generalize hstack : s.warp.ipdomStack = stack at hchain
    cases hchain with
    | cons hrest hsub hdepth hpass =>
    rw [hdepth] at hptr
    cases hpass with
    | uniform hdiv hentry hpasses =>
      have hw := (Warp.join_uniform heop htype hlast
        (by rw [hptr]; exact congrArg List.length hstack.symm)).trans
        (congrArg some (Warp.setTmask_nonempty h.active h.nonempty))
      refine ⟨_, hstep _ hw, ?_⟩
      have hleave := h.leave (m := s.warp.tmask) hregions hrest
        (hwithin.trans (hentry ▸ hsub)) h.nonempty hpc'
        { stack := rfl
          divergent := fun hd => by simp [hdiv] at hd
          uniform := fun _ => ⟨by simp [hpasses, hentry], hentry ▸ hwithin⟩
          entries := fun hd => by simp [hdiv] at hd }
      rw [← hstack] at hleave
      exact hleave
    | first hdiv hentry hpasses =>
      have hpart : s.warp.tmask ⊂ r.tmask := lt_of_le_of_lt hwithin hentry
      have hleft : (r.tmask \ s.warp.tmask).Nonempty := sdiff_nonempty.mpr hpart.not_subset
      have hw := (Warp.join_back heop htype hlast
        (by rw [hptr]; exact hstack ▸ ne_of_lt (Nat.lt_succ_self _)) hstack).trans
        (congrArg some (Warp.setTmask_nonempty h.active hleft))
      exact ⟨_, hstep _ hw, h.back hregions hrest hsub hdepth hleft
        (.second r.entry s.warp.tmask hdiv h.nonempty hwithin hentry (by simp [hpasses]) rfl)⟩
    | second m j hdiv hj hjm hm hpasses hentry =>
      have hne : r.tmask.Nonempty := hj.mono (hjm.trans hm.subset)
      have hw := (Warp.join_restore heop htype hlast
        (by rw [hptr]; exact hstack ▸ ne_of_lt (Nat.lt_succ_self _)) hstack).trans
        (congrArg some (Warp.setTmask_nonempty h.active hne))
      refine ⟨_, hstep _ hw, h.leave hregions hrest hsub hne hpc'
        { stack := rfl
          divergent := fun _ => rfl
          uniform := fun hd => by simp [hdiv] at hd
          entries := fun _ t ht => ?_ }⟩
      exact Region.entries_two hjm ht (by rw [hpasses, hentry]; rfl)

theorem Inv.step (hnested : s.Nested a) : ∃ s', s.step a = some (s', ()) ∧ s'.Inv := by
  cases heop : a.eop with
  | true =>
    cases htype : a.type with
    | split => exact h.split htype heop
    | join => exact h.join htype heop hnested
    | pred => exact h.pred htype heop hnested
  | false =>
    refine ⟨{ s with warp := s.warp.fetched a }, ?_, h.withPc _⟩
    simp [Divergence.step, Warp.process_more heop h.nonempty, heop]

end

/-- A warp that runs well-nested regions never aborts, never runs out of threads or stack, and
leaves each region with the stack it had before. -/
theorem regions_restored {m : ThreadMask n} (hm : m.Nonempty) (pc : BitVec xlen)
    {packets : List (WctlTrace n xlen)}
    (hnested : Along Divergence.step Nested (initial m pc) packets) :
    ∃ s outs, run Divergence.step (initial m pc) packets = some (s, outs) ∧ s.Sound := by
  obtain ⟨s, outs, hrun, hs⟩ := run_keeps (I := Inv) (C := Nested)
    (fun s a h hnested => by
      obtain ⟨s', hstep, hs'⟩ := h.step hnested
      exact ⟨s', (), hstep, hs'⟩)
    (initial_inv hm pc) hnested
  exact ⟨s, outs, hrun, hs.sound⟩

def packet (type : WctlType) (pc : BitVec 32) (cond : List ℕ) : WctlTrace 4 32 :=
  ⟨type, false, pc, true, fun t => cond.getD t 0, fun _ => 15⟩

theorem regions_restored_nested :
    let packets :=
  [packet .split 0 [1, 1, 1, 0], packet .split 4 [0, 0, 1, 0], packet .join 8 [0, 0, 0, 1],
      packet .join 12 [0, 0, 0, 0], packet .split 4 [1, 0, 1, 0], packet .join 8 [1, 1, 1, 0],
      packet .join 8 [1, 1, 1, 0], packet .join 12 [0, 0, 0, 0]]
    ∃ s outs, run Divergence.step (initial univ 0) packets = some (s, outs) ∧ s.Sound :=
  regions_restored (by decide) _ (by decide +kernel)

/-- A `PRED` in the first pass drops thread 1, which then begins the region a second time; a `PRED`
in a region that does not diverge is not undone by its `JOIN`. All of them only narrow the mask. -/
theorem dropped_thread_runs_twice :
    let packets :=
  [packet .split 0 [1, 1, 0, 0], packet .pred 4 [1, 0, 0, 0], packet .join 8 [0, 0, 0, 0],
      packet .join 8 [0, 0, 0, 0], packet .split 12 [1, 1, 1, 1], packet .pred 16 [1, 0, 0, 0],
      packet .join 20 [0, 0, 0, 0]]
    Along Divergence.step (fun s a => s.Nested a ∧ (a.type = .pred → a.predTmask s.warp.tmask =
      some (s.warp.tmask ∩ a.thenTmask s.warp.tmask) ∧ (a.thenTmask s.warp.tmask).Nonempty))
      (initial univ 0) packets ∧
    ∃ s outs v v', run Divergence.step (initial univ 0) packets = some (s, outs) ∧
    s.visits = [v', v] ∧
      v.region.divergent = true ∧ v.region.tmask = univ ∧ v.region.entries 1 = 2 ∧
      v'.region.tmask = univ ∧ v'.tmask = {0} :=
  ⟨by decide +kernel, _, _, _, _, rfl,
    rfl, by decide +kernel, by decide +kernel, by decide +kernel,
    by decide +kernel, by decide +kernel⟩

end Divergence

end VortexGpu.Simx

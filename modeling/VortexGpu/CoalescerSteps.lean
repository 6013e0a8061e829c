import VortexGpu.CoalescerMoves

/-!
# Ticks of the coalescer

A new round, the arrival of a request, and the whole tick.
-/

namespace VortexGpu.Coalescer
open Function (update_of_ne update_self)
open List Bool TagTable Config

open ByteMem (Mem)
open Cache (MemRsp)

section Steps

variable [Config] {w : World} {t : Tick} {req : LsuReq}

theorem newRound_lanes {sent : ℕ → Bool} {tag o : ℕ} :
    (newRound req sent tag).lanes o = true ↔ o < outputSize ∧ ∃ r,
      seed req sent o = some r := by
  simp [newRound, Option.isSome_iff_exists]

theorem newRound_covered {sent : ℕ → Bool} (tag : ℕ) {i : ℕ}
    (hi : roundMask req sent i = true) :
    (newRound req sent tag).lanes (i / outputRatio) = true := by
  obtain ⟨hlt, r, hr, -⟩ := roundMask_iff.mp hi
  exact newRound_lanes.mpr ⟨group_lt hlt, r, hr⟩

theorem Inv.newRound (h : Inv w) (hreq : w.arrived[w.popped]? = some req)
    (hnone : w.coalescer.outRound = none) {tag : ℕ}
    {pending : ℕ → Option PendingReq} {holder : ℕ → ℕ} (htable : Table { w with
      coalescer := { w.coalescer with
        pendingRdReqs := pending
        outRound := some (newRound req w.coalescer.sentMask tag) }
      holder := holder }) :
    Inv { w with
      coalescer := { w.coalescer with
        pendingRdReqs := pending
        outRound := some (newRound req w.coalescer.sentMask tag) }
      holder := holder } := by
  have hdone : ∀ k, doneMask { w with
      coalescer := { w.coalescer with
        pendingRdReqs := pending
        outRound := some (Coalescer.newRound req w.coalescer.sentMask tag) }
      holder := holder } k = doneMask w k := by
    intro k
    funext i
    simp only [doneMask, hnone, Option.any_some, Option.any_none, Bool.or_false]
    cases hcur : (Coalescer.newRound req w.coalescer.sentMask tag).curMask i with
    | false => simp only [Bool.false_and, Bool.or_false]
    | true => simp [newRound_covered tag hcur]
  refine ⟨{ h.rounds with left := fun _ hno => (by cases hno), round := fun {round} hr => ?_ },
    ⟨h.emissions.serves, fun {k i} => ?_, h.emissions.unique,
      fun {k req} hk hop hsep o m => ?_⟩,
    htable, ⟨h.deliveries.unanswered, h.deliveries.answered⟩⟩
  · cases hr
    refine ⟨req, tag, hreq, rfl, fun o ho => newRound_lanes.mp ho, fun o r hr => ?_⟩
    simp [Coalescer.newRound, hr]
  · rw [hdone]
    exact h.emissions.covered
  · rw [hdone]
    exact h.emissions.stores hk hop hsep o m

def Live (w : World) : Prop :=
  ∀ round, w.coalescer.outRound = some round → ∃ o < outputSize, round.lanes o = true

theorem Inv.buildRound (h : Inv w) (hreq : w.arrived[w.popped]? = some req)
    (hnone : w.coalescer.outRound = none)
    (hroom : full queueSize w.coalescer.pendingRdReqs = false) :
    ∃ w', buildRound w req = some w' ∧ Inv w' ∧ Live w' ∧ w'.coalescer.outRound ≠ none ∧
    w'.arrived = w.arrived ∧ w'.emitted = w.emitted := by
  obtain ⟨i, hi, hu⟩ := h.rounds.left hreq hnone
  obtain ⟨r, hr⟩ := seed_of_unsent hu
  have hlane := roundMask_seed (group_lt hi) hr
  have hgroup : ∀ tag, (Coalescer.newRound req w.coalescer.sentMask tag).lanes
      (i / outputRatio) = true := fun _ => newRound_lanes.mpr ⟨group_lt hi, r, hr⟩
  obtain ⟨tag, htag⟩ := free_isSome hroom
  obtain ⟨hlt, hfree⟩ := free_spec htag
  have hunowed : ∀ o, w.owed o tag = none := by
    intro o
    by_contra hn
    obtain ⟨n, hn⟩ := Option.ne_none_iff_exists'.mp hn
    obtain ⟨-, -, -, -, -, -, e, he⟩ := h.table.owed hn
    rw [hfree] at he
    cases he
  have hlive : ∀ {w' : World}, ∀ tag', w'.coalescer.outRound =
      some (Coalescer.newRound req w.coalescer.sentMask tag') → Live w' := by
    intro w' tag' hw' round hround
    cases hw'.symm.trans hround
    exact ⟨_, group_lt hi, hgroup tag'⟩
  simp only [Coalescer.buildRound]
  rw [if_pos (any_eq_true.mpr ⟨_, mem_range.mpr (group_lt hi), hgroup 0⟩)]
  cases hneeds : needsRsp req.op with
  | true =>
    rw [if_pos rfl, htag, Option.map_some]
    refine ⟨_, rfl, h.newRound hreq hnone ⟨fun {tag'} htag' => ?_, fun {tag' e} he => ?_,
      fun {o tag' n} hn => ?_, h.table.unanswered,
      h.table.fresh, fun {round o} hround hl _ => ?_⟩, hlive _ rfl, (fun hno => by cases hno),
      rfl, rfl⟩
    · exact (update_of_ne (by omega) ..).trans (h.table.tags htag')
    · by_cases htag' : tag' = tag
      · subst htag'
        have he' : some (⟨req.tag, roundMask req w.coalescer.sentMask⟩ : PendingReq) = some e :=
          (update_self tag' (some ⟨req.tag, roundMask req w.coalescer.sentMask⟩)
            w.coalescer.pendingRdReqs).symm.trans he
        cases he'
        refine ⟨⟨req, by simp only [update_self]; exact hreq, hneeds, rfl⟩,
          ⟨_, (roundMask_unsent hlane).1, hlane⟩, fun j => ?_⟩
        constructor
        · intro hj
          exact .inr ⟨_, rfl, newRound_covered tag' hj, hj, rfl, hneeds⟩
        · rintro (⟨n, em, hn, -⟩ | ⟨round, hround, -, hj, -⟩)
          · rw [hunowed] at hn
            cases hn
          · cases hround
            exact hj
      · have he' : w.coalescer.pendingRdReqs tag' = some e := (update_of_ne htag' ..).symm.trans he
        obtain ⟨hreq', hne, hout⟩ := h.table.entry he'
        refine ⟨by simp only [update_of_ne htag']; exact hreq', hne,
          fun j => (hout j).trans (or_congr_right (iff_of_false ?_ ?_))⟩
        · rintro ⟨round, hround, -⟩
          rw [hnone] at hround
          cases hround
        · rintro ⟨round, hround, -, -, hrtag, -⟩
          cases hround
          exact htag' hrtag.symm
    · have htag' : tag' ≠ tag := by
        rintro rfl
        rw [hunowed] at hn
        cases hn
      obtain ⟨e, he, hch, hetag, hreq', hans, e', he'⟩ := h.table.owed hn
      exact ⟨e, he, hch, hetag, hreq'.trans (update_of_ne htag' ..).symm, hans, e',
        (update_of_ne htag' ..).trans he'⟩
    · cases hround
      exact ⟨update_self .., ⟨_, update_self ..⟩, hunowed o⟩
  | false =>
    refine ⟨_, rfl, h.newRound hreq hnone { h.table with
      entry := fun {tag' e} he => ?_, waiting := fun {round o} hround hl hneeds' => ?_ },
      hlive _ rfl, (fun hno => by cases hno), rfl, rfl⟩
    · obtain ⟨hreq', hne, hout⟩ := h.table.entry he
      refine ⟨hreq', hne, fun j => (hout j).trans (or_congr_right (iff_of_false ?_ ?_))⟩
      · rintro ⟨round, hround, -⟩
        rw [hnone] at hround
        cases hround
      · rintro ⟨round, hround, -, -, -, hneeds'⟩
        cases hround
        cases hneeds.symm.trans hneeds'
    · cases hround
      cases hneeds.symm.trans hneeds'

theorem Inv.commitRound_live (h : Inv w) : Live (Coalescer.commitRound w) := by
  unfold Coalescer.commitRound
  split
  · rename_i round req hround _
    split
    · rename_i hany
      intro round' hr'
      cases hround.symm.trans hr'
      obtain ⟨o, ho, hl⟩ := any_eq_true.mp hany
      exact ⟨o, mem_range.mp ho, hl⟩
    · simp only
      split <;> exact fun round' hr' => by cases hr'
  · rename_i hno
    intro round hround
    obtain ⟨req, tag, hreq, -⟩ := h.rounds.round hround
    exact (hno round req hround hreq).elim

theorem Inv.requestStep (h : Inv w) (hlive : Live w) (t : Tick) :
    ∃ w', requestStep w t = some w' ∧ Inv w' ∧ Live w' ∧
    ((∃ round, w.coalescer.outRound = some round) ∧ w' = Coalescer.flushOutRound t w ∨
      w.coalescer.outRound = none ∧ w' = w ∧
        (w.arrived[w.popped]? = none ∨ full queueSize w.coalescer.pendingRdReqs = true) ∨
      w.coalescer.outRound = none ∧ w'.coalescer.outRound ≠ none ∧ w'.arrived = w.arrived ∧
      w'.emitted = w.emitted) := by
  unfold Coalescer.requestStep
  split
  · rename_i round hround
    exact ⟨_, rfl, h.flushOutRound t, (h.trySends t _).commitRound_live,
      .inl ⟨⟨round, hround⟩, rfl⟩⟩
  rename_i hnone
  split
  · rename_i hhead
    exact ⟨w, rfl, h, hlive, .inr (.inl ⟨hnone, rfl, .inl hhead⟩)⟩
  rename_i req hreq
  obtain ⟨i, hi, hm⟩ := h.rounds.nonempty hreq
  rw [if_pos (any_eq_true.mpr ⟨i, mem_range.mpr hi, hm⟩)]
  split
  · rename_i hfull
    exact ⟨w, rfl, h, hlive, .inr (.inl ⟨hnone, rfl, .inr hfull⟩)⟩
  · rename_i hroom
    obtain ⟨w', hw', hinv, hlive', hrest⟩ := h.buildRound hreq hnone (not_eq_true _ ▸ hroom)
    exact ⟨w', hw', hinv, hlive', .inr (.inr ⟨hnone, hrest⟩)⟩

theorem Inv.arrive (h : Inv w) {new : List LsuReq}
    (hnew : ∀ req ∈ new, ∃ i < inputSize, req.mask i = true) :
    Inv { w with arrived := w.arrived ++ new } := by
  have hkeep : ∀ {k : ℕ} {req : LsuReq}, w.arrived[k]? = some req →
      (w.arrived ++ new)[k]? = some req := by
    intro k req hk
    rw [List.getElem?_append_left (List.getElem?_eq_some_iff.mp hk).1, hk]
  have hold : ∀ {k : ℕ} {req req' : LsuReq}, w.arrived[k]? = some req →
      (w.arrived ++ new)[k]? = some req' → req = req' := by
    intro k req req' hk hk'
    exact Option.some_inj.mp ((hkeep hk).symm.trans hk')
  have hdone : ∀ k, doneMask { w with arrived := w.arrived ++ new } k = doneMask w k := by
    intro k
    funext i
    simp only [doneMask]
    split
    · rename_i hk
      have := h.rounds.popped_le
      rw [List.getElem?_append_left (by omega)]
    · rfl
  refine ⟨⟨?_, fun {k req} hk => ?_, fun hs => ?_,
    fun {req i j} hreq hop hj hm hgroup hline hs =>
    ?_, fun {req} hreq hnone => ?_,
    fun {round} hround => ?_⟩, ⟨fun he => ?_, fun {k i} => ?_, h.emissions.unique,
    fun {k req} hreq hop hsep o m => ?_⟩, { h.table with entry := fun {tag e} he => ?_ },
    ⟨h.deliveries.unanswered, fun he hi hans => ?_⟩⟩
  · have := h.rounds.popped_le
    simp only [List.length_append]
    omega
  · by_cases hlt : k < w.arrived.length
    · rw [List.getElem?_append_left hlt] at hk
      exact h.rounds.nonempty hk
    · rw [List.getElem?_append_right (by omega)] at hk
      exact hnew req (mem_of_getElem? hk)
  · obtain ⟨hi, req, hreq, hm⟩ := h.rounds.sent hs
    exact ⟨hi, req, hkeep hreq, hm⟩
  · obtain ⟨-, req', hreq', -⟩ := h.rounds.sent hs
    obtain rfl := hold hreq' hreq
    exact h.rounds.classes hreq' hop hj hm hgroup hline hs
  · by_cases hlt : w.popped < w.arrived.length
    · simp only [List.getElem?_append_left hlt] at hreq
      exact h.rounds.left hreq hnone
    · -- the new head: nothing of it was sent
      have hzero : ∀ i, w.coalescer.sentMask i = false := by
        intro i
        by_contra hs
        obtain ⟨-, req', hreq', -⟩ := h.rounds.sent (not_eq_false _ ▸ hs)
        exact hlt (List.getElem?_eq_some_iff.mp hreq').1
      rw [List.getElem?_append_right (Nat.le_of_not_lt hlt)] at hreq
      obtain ⟨i, hi, hm⟩ := hnew req (mem_of_getElem? hreq)
      exact ⟨i, hi, unsent_iff.mpr ⟨hzero i, hm⟩⟩
  · obtain ⟨req, tag, hreq, hrest⟩ := h.rounds.round hround
    exact ⟨req, tag, hkeep hreq, hrest⟩
  · obtain ⟨req, hreq, hserves⟩ := h.emissions.serves he
    exact ⟨req, hkeep hreq, hserves⟩
  · rw [hdone]
    exact h.emissions.covered
  · rw [hdone]
    by_cases hlt : k < w.arrived.length
    · simp only [List.getElem?_append_left hlt] at hreq
      exact h.emissions.stores hreq hop hsep o m
    -- nothing was emitted for a request that has just arrived
    have hnone : ∀ i, doneMask w k i = false := by
      intro i
      by_contra hd
      obtain ⟨n, e, he, rfl, -⟩ := h.emissions.covered.mp (not_eq_false _ ▸ hd)
      obtain ⟨req', hreq', -⟩ := h.emissions.serves he
      exact hlt (List.getElem?_eq_some_iff.mp hreq').1
    have hleft : (w.emitted.filter fun e => decide (e.request = k) && decide (e.channel = o)) =
        [] := by
      refine List.filter_eq_nil_iff.mpr fun e he hp => ?_
      rw [and_eq_true, decide_eq_true_eq] at hp
      obtain ⟨n, hn⟩ := List.getElem?_of_mem he
      obtain ⟨req', hreq', -⟩ := h.emissions.serves hn
      rw [hp.1] at hreq'
      exact hlt (List.getElem?_eq_some_iff.mp hreq').1
    have hright : (groupLanes o).filter (doneMask w k) = [] := by
      refine List.filter_eq_nil_iff.mpr fun i _ hd => ?_
      rw [hnone] at hd
      cases hd
    rw [hright]
    simp [hleft]
  · obtain ⟨⟨req, hreq, hrest⟩, hne, hout⟩ := h.table.entry he
    exact ⟨⟨req, hkeep hreq, hrest⟩, hne, hout⟩
  · obtain ⟨rsp, req, hreq, hrest⟩ := h.deliveries.answered he hi hans
    exact ⟨rsp, req, hkeep hreq, hrest⟩

def Contract (w : World) (t : Tick) : Bool :=
  ((range outputSize).all fun j => (t.rspIn j).all fun r => (w.owed j r.tag).isSome) &&
    t.input.all fun req => (range inputSize).any req.mask

theorem Contract.owedHeads (h : Contract w t = true) : OwedHeads w t := by
  simp only [Contract, and_eq_true, all_eq_true, mem_range] at h
  intro j hj r hr
  have := h.1 j hj
  rw [hr, Option.all_some] at this
  exact Option.isSome_iff_exists.mp this

theorem Inv.onTick (h : Inv w) (hlive : Live w) (hC : Contract w t = true) :
    ∃ w', onTick w t = some (w', ()) ∧ Inv w' ∧ Live w' := by
  obtain ⟨w1, h1, hinv1, hcases⟩ := h.responseStep (Contract.owedHeads hC)
  have hlive1 : Live w1 := by
    rcases hcases with ⟨rfl, -⟩ | ⟨o, rsp0, entry, -, -, rfl⟩
    all_goals exact hlive
  obtain ⟨w2, h2, hinv2, hlive2, -⟩ := hinv1.requestStep hlive1 t
  refine ⟨{ w2 with arrived := w2.arrived ++ t.input.toList }, ?_,
    hinv2.arrive fun req hreq => ?_, hlive2⟩
  · simp [Coalescer.onTick, h1, h2]
  · rw [Option.mem_toList] at hreq
    simp only [Contract, hreq, Option.all_some, and_eq_true, any_eq_true, mem_range] at hC
    exact hC.2

end Steps

end VortexGpu.Coalescer

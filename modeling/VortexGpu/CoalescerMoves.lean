import VortexGpu.CoalescerInv

/-!
# The moves of the coalescer

Responses, the issue of a request to one channel, the end of a round, a new round and the arrival of
a request: each keeps the invariant, and none runs into an assertion.
-/

namespace VortexGpu.Coalescer
open List (mem_range)
open Function (update update_of_ne update_self)
open List Option Config

open ByteMem (Mem)
open Cache (MemRsp)

section Moves

variable [Config] {w : World} {t : Tick}

/-- The heads of the response channels answer requests that were issued to these channels. -/
def OwedHeads (w : World) (t : Tick) : Prop :=
  ∀ j < outputSize, ∀ r, t.rspIn j = some r → ∃ n, w.owed j r.tag = some n

section Response

variable {o tag : ℕ} {entry : PendingReq}

theorem laneMask_iff {j : ℕ} : laneMask t o tag j = true ↔ j < outputSize ∧ o ≤ j ∧ ∃ r,
    t.rspIn j = some r ∧ r.tag = tag := by
  cases h : t.rspIn j with
  | none => simp [laneMask, h]
  | some r => simp [laneMask, h, and_assoc]

theorem OwedHeads.owed (h : OwedHeads w t) {j : ℕ} (hj : laneMask t o tag j = true) :
    ∃ n r, w.owed j tag = some n ∧ t.rspIn j = some r := by
  obtain ⟨hlt, -, r, hr, rfl⟩ := laneMask_iff.mp hj
  obtain ⟨n, hn⟩ := h j hlt r hr
  exact ⟨n, r, hn, hr⟩

theorem Inv.lane_idle (h : Inv w) (howed : OwedHeads w t) {round : OutRound} {j : ℕ}
    (hround : w.coalescer.outRound = some round)
    (hlanes : round.lanes j = true) (hneeds : needsRsp (round.reqs j).op = true) :
    laneMask t o (round.reqs j).tag j ≠ true := by
  intro hl
  obtain ⟨n, -, hn, -⟩ := howed.owed hl
  cases (h.table.waiting hround hlanes hneeds).2.2.symm.trans hn

theorem Inv.answered_lane (h : Inv w) (howed : OwedHeads w t)
    (hentry : w.coalescer.pendingRdReqs tag = some entry) {i : ℕ}
    (hi : rspMask t o tag entry i = true) :
    ∃ n e, w.owed (i / outputRatio) tag = some n ∧ w.emitted[n]? = some e ∧
    e.cover i = true := by
  rw [rspMask, Bool.and_eq_true] at hi
  rcases ((h.table.entry hentry).2.2 i).mp hi.2 with hissued |
    ⟨round, hround, hlanes, -, htag, hneeds⟩
  · exact hissued
  · subst htag
    exact absurd hi.1 (h.lane_idle howed hround hlanes hneeds)

theorem answerAfter_cases (howed : OwedHeads w t) (o tag n : ℕ) :
    (∃ j r, laneMask t o tag j = true ∧ w.owed j tag = some n ∧ t.rspIn j = some r ∧
      answerAfter w t o tag n = some r) ∨
    ((∀ j, laneMask t o tag j = true → w.owed j tag ≠ some n) ∧
      answerAfter w t o tag n = w.answer n) := by
  unfold answerAfter
  cases hfind : (range outputSize).find? fun j =>
    laneMask t o tag j && decide (w.owed j tag = some n) with
  | some j =>
    have hp := find?_some hfind
    rw [Bool.and_eq_true, decide_eq_true_eq] at hp
    obtain ⟨-, r, -, hr⟩ := howed.owed hp.1
    exact .inl ⟨j, r, hp.1, hp.2, hr, hr⟩
  | none =>
    refine .inr ⟨fun j hj hn => ?_, rfl⟩
    have := find?_eq_none.mp hfind j (mem_range.mpr (laneMask_iff.mp hj).1)
    simp [hj, hn] at this

theorem clearLanes_some {mask : ℕ → Bool} {e : PendingReq}
    (h : clearLanes entry mask = some e) :
    e.tag = entry.tag ∧ (∀ i, e.mask i = true ↔ entry.mask i = true ∧ mask i = false) ∧
    ∃ i < inputSize, e.mask i = true := by
  rw [clearLanes] at h
  split at h
  · rename_i hany
    cases h
    simp only [List.any_eq_true, mem_range] at hany
    refine ⟨rfl, fun i => ?_, hany⟩
    rw [Bool.and_eq_true, Bool.not_eq_true']
  · cases h

theorem clearLanes_isSome {mask : ℕ → Bool} {i : ℕ} (hi : i < inputSize)
    (he : entry.mask i = true) (hm : mask i = false) : ∃ e, clearLanes entry mask = some e := by
  refine ⟨_, if_pos ?_⟩
  rw [List.any_eq_true]
  exact ⟨i, mem_range.mpr hi, by rw [he, hm]; rfl⟩

theorem rspMask_of_idle {i : ℕ} (h : laneMask t o tag (i / outputRatio) ≠ true) :
    rspMask t o tag entry i = false := by
  rw [rspMask, Bool.eq_false_of_not_eq_true h, Bool.false_and]

end Response

section Answered

variable {o : ℕ} {rsp0 : MemRsp} {entry : PendingReq}

theorem answered_owed {j tag n : ℕ} : (answered w t o rsp0 entry).owed j tag = some n ↔
    w.owed j tag = some n ∧ ¬ (laneMask t o rsp0.tag j = true ∧ tag = rsp0.tag) := by
  simp only [answered]
  split
  all_goals
    rename_i h
    rw [Bool.and_eq_true, decide_eq_true_eq] at h
    simp [h]

theorem answered_pending (hentry : w.coalescer.pendingRdReqs rsp0.tag = some entry) {tag i : ℕ}
    {e : PendingReq}
    (he : w.coalescer.pendingRdReqs tag = some e) (hi : i < inputSize) (hmask : e.mask i = true)
    (hnot : ¬ (laneMask t o rsp0.tag (i / outputRatio) = true ∧ tag = rsp0.tag)) :
    ∃ e', (answered w t o rsp0 entry).coalescer.pendingRdReqs tag = some e' := by
  simp only [answered]
  by_cases htag : tag = rsp0.tag
  · subst htag
    cases hentry.symm.trans he
    rw [update_self]
    exact clearLanes_isSome hi hmask (rspMask_of_idle fun hl => hnot ⟨hl, rfl⟩)
  · rw [update_of_ne htag]
    exact ⟨e, he⟩

theorem Inv.answered_table (h : Inv w) (howed : OwedHeads w t)
    (hentry : w.coalescer.pendingRdReqs rsp0.tag = some entry) :
    Table (answered w t o rsp0 entry) := by
  have hown : ∀ {j tag n}, w.owed j tag = some n → ∃ e, w.emitted[n]? = some e ∧
      e.channel = j ∧
      e.req.tag = tag := by
    intro j tag n hn
    obtain ⟨e, he, hch, htag, -⟩ := h.table.owed hn
    exact ⟨e, he, hch, htag⟩
  refine ⟨fun {tag} htag => ?_, fun {tag e} he => ?_, fun {j tag n} hn => ?_,
    fun {n e} he hneeds hans => ?_, fun {n} hn => ?_, fun {round j} hround hlanes hneeds => ?_⟩
  · have hne : tag ≠ rsp0.tag := by
      rintro rfl
      rw [h.table.tags htag] at hentry
      cases hentry
    exact (update_of_ne hne ..).trans (h.table.tags htag)
  · by_cases htag : tag = rsp0.tag
    · subst htag
      have hself : (answered w t o rsp0 entry).coalescer.pendingRdReqs rsp0.tag =
          clearLanes entry (rspMask t o rsp0.tag entry) := update_self ..
      obtain ⟨htag', hmask, hne⟩ := clearLanes_some (hself.symm.trans he)
      obtain ⟨⟨req, hreq, hneeds, hreqtag⟩, -, hout⟩ := h.table.entry hentry
      refine ⟨⟨req, hreq, hneeds, htag'.trans hreqtag⟩, hne, fun i => ?_⟩
      rw [hmask i, hout i]
      constructor
      · rintro ⟨hi, hno⟩
        rw [rspMask, (hout i).mpr hi, Bool.and_true] at hno
        refine hi.imp_left ?_
        rintro ⟨n, em, hn, hem⟩
        exact ⟨n, em, answered_owed.mpr ⟨hn, fun hl => by rw [hno] at hl; cases hl.1⟩, hem⟩
      · rintro (⟨n, em, hn, hem⟩ | ⟨round, hround, hlanes, hcur, hrtag, hneeds'⟩)
        · obtain ⟨hn, hnot⟩ := answered_owed.mp hn
          exact ⟨.inl ⟨n, em, hn, hem⟩, rspMask_of_idle fun hl => hnot ⟨hl, rfl⟩⟩
        · refine ⟨.inr ⟨round, hround, hlanes, hcur, hrtag, hneeds'⟩, rspMask_of_idle ?_⟩
          exact hrtag ▸ h.lane_idle howed hround hlanes hneeds'
    · have he' : w.coalescer.pendingRdReqs tag = some e := (update_of_ne htag ..).symm.trans he
      obtain ⟨hreq, hne, hout⟩ := h.table.entry he'
      refine ⟨hreq, hne, fun i => (hout i).trans (or_congr_left ?_)⟩
      refine exists_congr fun n => exists_congr fun em => and_congr_left fun _ => ?_
      exact ⟨fun hn => answered_owed.mpr ⟨hn, fun hl => htag hl.2⟩,
        fun hn => (answered_owed.mp hn).1⟩
  · obtain ⟨hn, hnot⟩ := answered_owed.mp hn
    obtain ⟨e, he, hch, htag, hreq, hans, e', he'⟩ := h.table.owed hn
    refine ⟨e, he, hch, htag, hreq, ?_, ?_⟩
    · rcases answerAfter_cases howed o rsp0.tag n with ⟨j', r, hl, hn', -⟩ | ⟨-, hsame⟩
      · obtain ⟨e2, he2, hch2, htag2⟩ := hown hn'
        cases he.symm.trans he2
        exact absurd ⟨hch.symm.trans hch2 ▸ hl, htag.symm.trans htag2⟩ hnot
      · exact hsame.trans hans
    · obtain ⟨req, -, hserves⟩ := h.emissions.serves he
      obtain ⟨i, hi⟩ := hserves.nonempty
      obtain ⟨hlt, hgroup, -⟩ := hserves.lanes hi
      rw [hch] at hgroup
      refine answered_pending hentry he' hlt
        (((h.table.entry he').2.2 i).mpr (.inl ⟨n, e, by rw [hgroup, hn], he, hi⟩)) ?_
      rwa [hgroup]
  · rcases answerAfter_cases howed o rsp0.tag n with ⟨j', r, -, -, -, hsome⟩ | ⟨hno, hsame⟩
    · cases hsome.symm.trans hans
    · have hn := h.table.unanswered he hneeds (hsame.symm.trans hans)
      refine answered_owed.mpr ⟨hn, fun hl => ?_⟩
      rw [hl.2] at hn
      exact hno e.channel hl.1 hn
  · rcases answerAfter_cases howed o rsp0.tag n with ⟨j', r, -, hn', -⟩ | ⟨-, hsame⟩
    · obtain ⟨e, he, -⟩ := hown hn'
      have := (List.getElem?_eq_some_iff.mp he).1
      exact absurd hn (by simpa [answered] using this)
    · exact hsame.trans (h.table.fresh hn)
  · obtain ⟨hholder, ⟨e, he⟩, hnone⟩ := h.table.waiting hround hlanes hneeds
    have hnone' : (answered w t o rsp0 entry).owed j (round.reqs j).tag = none := by
      simp [answered, hnone]
    refine ⟨hholder, ?_, hnone'⟩
    obtain ⟨req, tag, -, hcur, hseeds, -⟩ := h.rounds.round hround
    obtain ⟨hlt, r, hr⟩ := hseeds j hlanes
    have hrlt := (seed_spec hr).1
    have hmask : e.mask (j * outputRatio + r) = true := by
      refine ((h.table.entry he).2.2 _).mpr (.inr ⟨round, hround, ?_⟩)
      rw [lane_div hrlt]
      exact ⟨hlanes, by rw [hcur]; exact roundMask_seed hlt hr, rfl, hneeds⟩
    refine answered_pending hentry he (lane_lt hlt hrlt) hmask fun hl => ?_
    rw [lane_div hrlt] at hl
    exact h.lane_idle howed hround hlanes hneeds (hl.2 ▸ hl.1)

theorem deliveriesOf_answered (w : World) (t : Tick) (o : ℕ) (rsp0 : MemRsp) (entry : PendingReq)
    (k i : ℕ) : deliveriesOf (answered w t o rsp0 entry) k i = deliveriesOf w k i ++
      if w.holder rsp0.tag = k ∧ rspMask t o rsp0.tag entry i =
        true then [mergeRsp t o rsp0 entry]
      else [] := by
  simp only [deliveriesOf, answered, filter_append, map_append]
  congr 1
  by_cases h : w.holder rsp0.tag = k ∧ rspMask t o rsp0.tag entry i = true
  · rw [if_pos h]
    simp [mergeRsp, h.1, h.2]
  · rw [if_neg h]
    simpa [mergeRsp] using h

theorem Inv.answered_deliveries (h : Inv w) (howed : OwedHeads w t)
    (hentry : w.coalescer.pendingRdReqs rsp0.tag = some entry) :
    Deliveries (answered w t o rsp0 entry) := by
  -- a lane that is delivered now belongs to an emission that is answered now
  have hnow : ∀ {i}, rspMask t o rsp0.tag entry i = true → ∃ n e r, w.emitted[n]? = some e ∧
      e.cover i = true ∧
      e.request = w.holder rsp0.tag ∧ w.answer n = none ∧ answerAfter w t o rsp0.tag n =
      some r := by
    intro i hi
    obtain ⟨n, e, hn, he, hcover⟩ := h.answered_lane howed hentry hi
    obtain ⟨e', he', hch, htag, hreq, hans, -⟩ := h.table.owed hn
    cases he.symm.trans he'
    rcases answerAfter_cases howed o rsp0.tag n with ⟨j, r, -, -, -, hsome⟩ | ⟨hno, -⟩
    · exact ⟨n, e, r, he, hcover, hreq, hans, hsome⟩
    · rw [rspMask, Bool.and_eq_true] at hi
      exact absurd hn (hno _ hi.1)
  refine ⟨fun {k i} hall => ?_, fun {n e i r} he hcover hans => ?_⟩
  · have hbefore : deliveriesOf w k i = [] := by
      refine h.deliveries.unanswered fun n e he hk hcover => ?_
      have := hall n e he hk hcover
      rcases answerAfter_cases howed o rsp0.tag n with ⟨j, r, -, -, -, hsome⟩ | ⟨-, hsame⟩
      · cases hsome.symm.trans this
      · exact hsame.symm.trans this
    rw [deliveriesOf_answered, hbefore, if_neg]
    · rfl
    · rintro ⟨rfl, hi⟩
      obtain ⟨n, e, r, he, hcover, hreq, -, hsome⟩ := hnow hi
      cases hsome.symm.trans (hall n e he hreq hcover)
  · rw [deliveriesOf_answered]
    rcases answerAfter_cases howed o rsp0.tag n with ⟨j, r', hl, hn, hrsp, hsome⟩ |
      ⟨_, hsame⟩
    · cases hsome.symm.trans hans
      obtain ⟨e', he', hch, htag, hreq, hnone, -⟩ := h.table.owed hn
      cases he.symm.trans he'
      obtain ⟨⟨req, harr, -, hreqtag⟩, -, hout⟩ := h.table.entry hentry
      obtain ⟨req', _, hserves⟩ := h.emissions.serves he
      have hgroup : i / outputRatio = j := (hserves.lanes hcover).2.1.trans hch
      have hmask : rspMask t o rsp0.tag entry i = true := by
        rw [rspMask, hgroup, hl, Bool.true_and]
        exact (hout i).mpr (.inl ⟨n, e, by rw [hgroup, hn], he, hcover⟩)
      have hbefore : deliveriesOf w e.request i = [] := by
        refine h.deliveries.unanswered fun m e' he' hk hcover' => ?_
        rw [h.emissions.unique he' he hk hcover' hcover]
        exact hnone
      rw [hbefore, if_pos ⟨hreq.symm, hmask⟩]
      refine ⟨mergeRsp t o rsp0 entry, req, by rw [hreq]; exact harr, rfl, hreqtag, ?_⟩
      simp only [mergeRsp, hmask, if_true, hgroup, hrsp]
      rfl
    · obtain ⟨rsp, req, harr, hdel, hrest⟩ :=
        h.deliveries.answered he hcover (hsame.symm.trans hans)
      refine ⟨rsp, req, harr, ?_, hrest⟩
      rw [hdel, if_neg]
      · rfl
      · rintro ⟨hk, hi⟩
        obtain ⟨m, e', r', he', hcover', hreq, hnone, -⟩ := hnow hi
        have hnm := h.emissions.unique he' he (hreq.trans hk) hcover' hcover
        rw [hnm, hsame.symm.trans hans] at hnone
        cases hnone

theorem Inv.answered (h : Inv w) (howed : OwedHeads w t)
    (hentry : w.coalescer.pendingRdReqs rsp0.tag = some entry) : Inv (answered w t o rsp0 entry) :=
  ⟨{ h.rounds with }, { h.emissions with }, h.answered_table howed hentry,
    h.answered_deliveries howed hentry⟩

end Answered

theorem Inv.responseStep (h : Inv w) (howed : OwedHeads w t) :
    ∃ w', responseStep w t = some w' ∧ Inv w' ∧
    (w' = w ∧ (t.rspFull = true ∨ ∀ o < outputSize, t.rspIn o = none) ∨
      ∃ o rsp0 entry, o < outputSize ∧ t.rspIn o = some rsp0 ∧
      w' = Coalescer.answered w t o rsp0 entry) := by
  unfold Coalescer.responseStep
  split
  · rename_i hfind
    refine ⟨w, rfl, h, .inl ⟨rfl, .inr fun o ho => ?_⟩⟩
    simpa using find?_eq_none.mp hfind o (mem_range.mpr ho)
  rename_i o hfind
  split
  · rename_i hfull
    exact ⟨w, rfl, h, .inl ⟨rfl, .inl hfull⟩⟩
  have hlt := mem_range.mp (mem_of_find?_eq_some hfind)
  have hsome := find?_some hfind
  obtain ⟨rsp0, hrsp⟩ := isSome_iff_exists.mp hsome
  obtain ⟨n, hn⟩ := howed o hlt rsp0 hrsp
  obtain ⟨-, -, -, -, -, -, entry, hentry⟩ := h.table.owed hn
  obtain ⟨i, hi, hmask⟩ := (h.table.entry hentry).2.1
  have hany : (range inputSize).any entry.mask = true :=
    List.any_eq_true.mpr ⟨i, mem_range.mpr hi, hmask⟩
  rw [hrsp, bind_some, hentry, bind_some, if_pos hany]
  exact ⟨_, rfl, h.answered howed hentry, .inr ⟨o, rsp0, entry, hlt, hrsp, rfl⟩⟩

section Issue

variable {round : OutRound} {o : ℕ}

theorem issueCover_iff {i : ℕ} : issueCover round o i = true ↔ i / outputRatio = o ∧
    round.curMask i = true := by
  rw [issueCover, Bool.and_eq_true, decide_eq_true_eq]

theorem doneMask_head (hround : w.coalescer.outRound = some round) (i : ℕ) :
    doneMask w w.popped i =
      (w.coalescer.sentMask i || (round.curMask i && !round.lanes (i / outputRatio))) := by
  rw [doneMask, if_neg (lt_irrefl _), if_pos rfl, hround, any_some]

theorem doneMask_issue (hround : w.coalescer.outRound = some round) (hlanes : round.lanes o = true)
    (k i : ℕ) :
    doneMask (issue w round o) k i =
      (doneMask w k i || (decide (k = w.popped) && issueCover round o i)) := by
  by_cases hk : k = w.popped
  · subst hk
    have hnew : doneMask (issue w round o) w.popped i = (w.coalescer.sentMask i ||
        (round.curMask i && !update round.lanes o false (i / outputRatio))) :=
      doneMask_head (show (issue w round o).coalescer.outRound =
        some { round with lanes := update round.lanes o false } from rfl) i
    rw [hnew, doneMask_head hround, decide_eq_true rfl, Bool.true_and, issueCover, Bool.or_assoc]
    refine congrArg (w.coalescer.sentMask i || ·) ?_
    by_cases ho : i / outputRatio = o
    · simp only [ho, update_self, hlanes, decide_true]
      cases round.curMask i <;> rfl
    · simp [ho]
  · simp [doneMask, issue, hk]

omit [Config] in
theorem filter_snoc {α : Type} (p : α → Bool) (l : List α) (a : α) :
    (l ++ [a]).filter p = if p a then l.filter p ++ [a] else l.filter p := by
  rw [filter_append, filter_cons, filter_nil]
  split <;> simp

theorem mem_groupLanes {i : ℕ} (h : i ∈ groupLanes o) : i / outputRatio = o := by
  obtain ⟨r, hr, rfl⟩ := mem_map.mp h
  exact lane_div (mem_range.mp hr)

theorem issue_emitted :
    (issue w round o).emitted =
      w.emitted ++ [⟨w.popped, o, issueCover round o, round.reqs o⟩] :=
  rfl

theorem issue_emitted_cases {n : ℕ} {e : Emission} (he : (issue w round o).emitted[n]? = some e) :
    w.emitted[n]? = some e ∨ n = w.emitted.length ∧
    e = ⟨w.popped, o, issueCover round o, round.reqs o⟩ := by
  rw [issue_emitted] at he
  by_cases hn : n < w.emitted.length
  · rw [List.getElem?_append_left hn] at he
    exact .inl he
  · have hlt := (List.getElem?_eq_some_iff.mp he).1
    rw [List.length_append, List.length_singleton] at hlt
    obtain rfl : n = w.emitted.length := by omega
    rw [getElem?_concat_length, some_inj] at he
    exact .inr ⟨rfl, he.symm⟩

theorem issue_emitted_old {n : ℕ} {e : Emission} (he : w.emitted[n]? = some e) :
    (issue w round o).emitted[n]? = some e :=
  (List.getElem?_append_left (List.getElem?_eq_some_iff.mp he).1).trans he

theorem issue_emitted_new :
    (issue w round o).emitted[w.emitted.length]? = some ⟨w.popped, o, issueCover round o,
      round.reqs o⟩ :=
  getElem?_concat_length

theorem issue_owed_self (hneeds : needsRsp (round.reqs o).op = true) :
    (issue w round o).owed o (round.reqs o).tag = some w.emitted.length := by
  simp [issue, hneeds]

theorem issue_owed_other {j tag : ℕ}
    (hne : ¬ (j = o ∧ tag = (round.reqs o).tag ∧ needsRsp (round.reqs o).op = true)) :
    (issue w round o).owed j tag = w.owed j tag := by
  simp only [issue]
  split
  · rename_i hneeds
    by_cases hj : j = o
    · subst hj
      rw [update_self, update_of_ne fun htag => hne ⟨rfl, htag, hneeds⟩]
    · rw [update_of_ne hj]
  · rfl

section
variable (h : Inv w) (hround : w.coalescer.outRound = some round) (hlanes : round.lanes o = true)
include h hround hlanes

theorem Inv.issue_serves :
    ∃ req, w.arrived[w.popped]? = some req ∧
    Serves req ⟨w.popped, o, issueCover round o, round.reqs o⟩ := by
  obtain ⟨req, tag, hreq, hcur, hseeds, hbuilt⟩ := h.rounds.round hround
  obtain ⟨hlt, r, hr⟩ := hseeds o hlanes
  have hrlt := (seed_spec hr).1
  rw [hbuilt o r hr]
  have hcover : ∀ {i}, issueCover round o i = true → i / outputRatio = o ∧
      roundMask req w.coalescer.sentMask i = true := by
    intro i hi
    rwa [issueCover_iff, hcur] at hi
  refine ⟨req, hreq, rfl, hlt, fun {i} hi => ?_, ⟨o * outputRatio + r, ?_⟩,
    fun hop {i} hi => ?_, fun hop {i} hi => ⟨?_, fun {j} hj => ?_⟩⟩
  · obtain ⟨hgroup, hmask⟩ := hcover hi
    obtain ⟨hi', hu⟩ := roundMask_unsent hmask
    exact ⟨hi', hgroup, (unsent_iff.mp hu).2⟩
  · rw [issueCover_iff, hcur]
    exact ⟨lane_div hrlt, roundMask_seed hlt hr⟩
  · obtain ⟨hgroup, hmask⟩ := hcover hi
    rw [← hgroup] at hr
    rw [roundMask_line hmask hr, hgroup]
    simp [buildReq, hop]
  · obtain ⟨hgroup, hmask⟩ := hcover hi
    have hseed := roundMask_atomic hop hmask
    rw [hgroup, hr, some_inj] at hseed
    simp [buildReq, hop, hseed, ← hgroup, lane_eq]
  · obtain ⟨hgroup, hmask⟩ := hcover hi
    obtain ⟨hgroup', hmask'⟩ := hcover hj
    have hseed := roundMask_atomic hop hmask
    have hseed' := roundMask_atomic hop hmask'
    rw [hgroup, hr, some_inj] at hseed
    rw [hgroup', hr, some_inj] at hseed'
    rw [← lane_eq j, ← lane_eq i, hgroup, hgroup', ← hseed, ← hseed']

theorem Inv.issue_new {i : ℕ}
    (hi : issueCover round o i = true) : doneMask w w.popped i = false := by
  obtain ⟨hgroup, hcur⟩ := issueCover_iff.mp hi
  obtain ⟨req, tag, -, hmask, -⟩ := h.rounds.round hround
  rw [hmask] at hcur
  have hu := (unsent_iff.mp (roundMask_unsent hcur).2).1
  rw [doneMask_head hround, hu, hgroup, hlanes]
  simp

theorem Inv.issue_stores {k : ℕ}
    {req : LsuReq} (hreq : w.arrived[k]? = some req) (hop : req.op = .st) (hsep : Separate req)
    (o' : ℕ) (m : Mem) : ((issue w round o).emitted.filter fun e => decide (e.request = k) &&
      decide (e.channel = o')).foldl Emission.store m =
      ((groupLanes o').filter (doneMask (issue w round o) k)).foldl (storeLane req) m := by
  have hold := h.emissions.stores hreq hop hsep o' m
  rw [issue_emitted, filter_snoc]
  by_cases hnew : k = w.popped ∧ o' = o
  · obtain ⟨rfl, rfl⟩ := hnew
    obtain ⟨req', tag, hreq', hcur, hseeds, hbuilt⟩ := h.rounds.round hround
    cases hreq.symm.trans hreq'
    obtain ⟨-, r, hr⟩ := hseeds o' hlanes
    have hat : req.op.isAtomic = false := by rw [hop]; rfl
    have hwrite : isWrite req.op = true := by rw [hop]; rfl
    have hdone : ∀ i ∈ groupLanes o', doneMask (issue w round o') w.popped i =
        (doneMask w w.popped i || round.curMask i) := by
      intro i hi
      rw [doneMask_issue hround hlanes, issueCover, mem_groupLanes hi]
      simp
    have hsent : ∀ i ∈ groupLanes o', doneMask w w.popped i = true →
        w.coalescer.sentMask i = true := by
      intro i hi hd
      rw [doneMask_head hround, mem_groupLanes hi, hlanes] at hd
      simpa using hd
    rw [if_pos (by simp), foldl_append, hold, filter_congr hdone]
    rw [Folds.foldl_filter_or]
    · -- the emitted store is the stores of the lanes it covers
      have haddr : ∀ j ∈ (groupLanes o').filter round.curMask,
          req.addrs j / 64 = lineAddr (req.addrs (o' * outputRatio + r)) / 64 := by
        intro j hj
        obtain ⟨hmem, hc⟩ := mem_filter.mp hj
        rw [hcur] at hc
        have hgroup := mem_groupLanes hmem
        have := roundMask_line hc (hgroup.symm ▸ hr)
        rw [hgroup] at this
        rw [← this, lineAddr_block]
      have :=
        mergeLanes_store haddr (none,
          0) (fun _ => rfl) (((groupLanes o').filter (doneMask w w.popped)).foldl (storeLane req) m)
      rw [foldl_cons, foldl_nil, Emission.store, hbuilt o' r hr]
      simp only [buildReq, hat, hwrite, Bool.or_false, if_true, Bool.false_eq_true, if_false]
      exact this
    · intro i hi hd
      have hs := hsent i hi hd
      by_contra hc
      rw [Bool.not_eq_false, hcur] at hc
      have := (unsent_iff.mp (roundMask_unsent hc).2).1
      rw [hs] at this
      cases this
    · intro a ha b hb hda hcb s
      have hs := hsent a ha hda
      obtain ⟨halt, req', hreq'', hma⟩ := h.rounds.sent hs
      cases hreq.symm.trans hreq''
      rw [hcur] at hcb
      obtain ⟨hblt, hub⟩ := roundMask_unsent hcb
      obtain ⟨hbs, hmb⟩ := unsent_iff.mp hub
      have hgroup : a / outputRatio = b / outputRatio :=
        (mem_groupLanes ha).trans (mem_groupLanes hb).symm
      refine storeLane_comm hsep halt hblt hgroup hma hmb (fun hline => ?_) s
      rw [h.rounds.classes hreq hat hblt hmb hgroup hline hs] at hbs
      cases hbs
  · rw [if_neg, hold]
    rotate_left
    · rw [Bool.and_eq_true, decide_eq_true_eq, decide_eq_true_eq]
      exact fun hc => hnew ⟨hc.1.symm, hc.2.symm⟩
    refine congrArg (fun l => l.foldl (storeLane req) m) (filter_congr fun i hi => ?_)
    rw [doneMask_issue hround hlanes]
    by_cases hk : k = w.popped
    · have ho : o' ≠ o := fun ho => hnew ⟨hk, ho⟩
      rw [issueCover, mem_groupLanes hi, decide_eq_false ho]
      simp
    · simp [hk]

theorem Inv.issue_emissions : Emissions (issue w round o) := by
  have hclash : ∀ {n : ℕ} {e : Emission} {i : ℕ}, w.emitted[n]? = some e →
      e.request = w.popped →
      e.cover i = true → issueCover round o i = true → False := by
    intro n e i he hk hcover hi
    have := h.emissions.covered.mpr ⟨n, e, he, hk, hcover⟩
    rw [h.issue_new hround hlanes hi] at this
    cases this
  refine ⟨fun {n e} he => ?_, fun {k i} => ?_, fun {n m e e' i} he he' hk hi hi' => ?_,
    fun hreq hop hsep => h.issue_stores hround hlanes hreq hop hsep⟩
  · rcases issue_emitted_cases he with hold | ⟨-, rfl⟩
    · exact h.emissions.serves hold
    · exact h.issue_serves hround hlanes
  · rw [doneMask_issue hround hlanes, Bool.or_eq_true, h.emissions.covered, Bool.and_eq_true,
      decide_eq_true_eq]
    constructor
    · rintro (⟨n, e, he, hk, hi⟩ | ⟨rfl, hi⟩)
      · exact ⟨n, e, issue_emitted_old he, hk, hi⟩
      · exact ⟨_, _, issue_emitted_new, rfl, hi⟩
    · rintro ⟨n, e, he, hk, hi⟩
      rcases issue_emitted_cases he with hold | ⟨-, rfl⟩
      · exact .inl ⟨n, e, hold, hk, hi⟩
      · exact .inr ⟨hk.symm, hi⟩
  · rcases issue_emitted_cases he with hold | ⟨hn, rfl⟩
    · rcases issue_emitted_cases he' with hold' | ⟨_, rfl⟩
      · exact h.emissions.unique hold hold' hk hi hi'
      · exact (hclash hold hk hi hi').elim
    · rcases issue_emitted_cases he' with hold' | ⟨hm, rfl⟩
      · exact (hclash hold' hk.symm hi' hi).elim
      · omega

theorem Inv.issue_outstanding (tag i : ℕ) :
    Outstanding (issue w round o) tag i ↔ Outstanding w tag i := by
  have hround' : (issue w round o).coalescer.outRound =
      some { round with lanes := update round.lanes o false } := rfl
  by_cases hnew : i / outputRatio = o ∧ tag = (round.reqs o).tag ∧
    needsRsp (round.reqs o).op = true
  · obtain ⟨rfl, rfl, hneeds⟩ := hnew
    have hnone := (h.table.waiting hround hlanes hneeds).2.2
    constructor
    · rintro (⟨n, e, hn, he, hi⟩ | ⟨round', hr', hl', -⟩)
      · cases (issue_owed_self hneeds).symm.trans hn
        cases issue_emitted_new.symm.trans he
        exact .inr ⟨round, hround, hlanes, (issueCover_iff.mp hi).2, rfl, hneeds⟩
      · cases hr'
        simp at hl'
    · rintro (⟨n, e, hn, -⟩ | ⟨round', hr', -, hcur, -⟩)
      · rw [hnone] at hn
        cases hn
      · cases hround.symm.trans hr'
        exact .inl ⟨_, _, issue_owed_self hneeds, issue_emitted_new,
          issueCover_iff.mpr ⟨rfl, hcur⟩⟩
  · have howed : (issue w round o).owed (i / outputRatio) tag = w.owed (i / outputRatio) tag :=
      issue_owed_other hnew
    constructor
    · rintro (⟨n, e, hn, he, hi⟩ | ⟨round', hr', hl', hcur, htag, hneeds⟩)
      · rw [howed] at hn
        obtain ⟨e', he', -⟩ := h.table.owed hn
        cases he.symm.trans (issue_emitted_old he')
        exact .inl ⟨n, e, hn, he', hi⟩
      · cases hr'
        refine .inr ⟨round, hround, ?_, hcur, htag, hneeds⟩
        by_cases ho : i / outputRatio = o
        · rw [ho]
          exact hlanes
        · exact (update_of_ne ho false round.lanes).symm.trans hl'
    · rintro (⟨n, e, hn, he, hi⟩ | ⟨round', hr', hl', hcur, htag, hneeds⟩)
      · exact .inl ⟨n, e, howed.trans hn, issue_emitted_old he, hi⟩
      · cases hround.symm.trans hr'
        have ho : i / outputRatio ≠ o := by
          rintro rfl
          exact hnew ⟨rfl, htag.symm, hneeds⟩
        exact .inr ⟨_, hround', (update_of_ne ho false round.lanes).trans hl', hcur,
          htag, hneeds⟩

theorem Inv.issue_table : Table (issue w round o) := by
  refine ⟨h.table.tags, fun {tag e} he => ?_, fun {j tag n} hn => ?_,
    fun {n e} he hneeds hans => ?_, fun {n} hn => ?_, fun {round' j} hr' hl' hneeds => ?_⟩
  · obtain ⟨hreq, hne, hout⟩ := h.table.entry he
    exact ⟨hreq, hne, fun i => (hout i).trans (h.issue_outstanding hround hlanes tag i).symm⟩
  · by_cases hnew : j = o ∧ tag = (round.reqs o).tag ∧ needsRsp (round.reqs o).op = true
    · obtain ⟨rfl, rfl, hneeds⟩ := hnew
      obtain ⟨hholder, hpending, -⟩ := h.table.waiting hround hlanes hneeds
      cases (issue_owed_self hneeds).symm.trans hn
      exact ⟨_, issue_emitted_new, rfl, rfl, hholder.symm, h.table.fresh (le_refl _), hpending⟩
    · obtain ⟨e, he, hrest⟩ := h.table.owed ((issue_owed_other hnew).symm.trans hn)
      exact ⟨e, issue_emitted_old he, hrest⟩
  · rcases issue_emitted_cases he with hold | ⟨rfl, rfl⟩
    · have hn := h.table.unanswered hold hneeds hans
      rw [issue_owed_other, hn]
      rintro ⟨hch, htag, hneeds'⟩
      have hnone := (h.table.waiting hround hlanes hneeds').2.2
      rw [hch, htag, hnone] at hn
      cases hn
    · exact issue_owed_self hneeds
  · have hlen : (issue w round o).emitted.length = w.emitted.length + 1 := by simp [issue]
    exact h.table.fresh (by omega)
  · cases hr'
    have hj : j ≠ o := by
      rintro rfl
      simp at hl'
    have hl : round.lanes j = true := (update_of_ne hj false round.lanes).symm.trans hl'
    obtain ⟨hholder, hpending, hnone⟩ := h.table.waiting hround hl hneeds
    exact ⟨hholder, hpending, (issue_owed_other fun hc => hj hc.1).trans hnone⟩

theorem Inv.issue : Inv (issue w round o) := by
  refine ⟨{ h.rounds with left := fun _ hnone => ?_, round := fun {round'} hr' => ?_ },
    h.issue_emissions hround hlanes, h.issue_table hround hlanes,
    ⟨fun {k i} hall => ?_, fun {n e i r} he hi hans => ?_⟩⟩
  · cases hnone
  · cases hr'
    obtain ⟨req, tag, hreq, hcur, hseeds, hbuilt⟩ := h.rounds.round hround
    refine ⟨req, tag, hreq, hcur, fun j hj => hseeds j ?_, hbuilt⟩
    by_cases ho : j = o
    · exact ho ▸ hlanes
    · exact (update_of_ne ho false round.lanes).symm.trans hj
  · exact h.deliveries.unanswered fun n e he => hall n e (issue_emitted_old he)
  · rcases issue_emitted_cases he with hold | ⟨rfl, rfl⟩
    · exact h.deliveries.answered hold hi hans
    · cases (h.table.fresh (le_refl _)).symm.trans hans

end

end Issue

theorem Inv.trySend (h : Inv w) (t : Tick) (o : ℕ) : Inv (trySend t w o) := by
  unfold Coalescer.trySend
  split
  · rename_i round hround
    split
    · rename_i hsend
      exact h.issue hround (Bool.and_eq_true_iff.mp hsend).1
    · exact h
  · exact h

theorem Inv.trySends (h : Inv w) (t : Tick) (l : List ℕ) :
    Inv (l.foldl (Coalescer.trySend t) w) := by
  induction l generalizing w with
  | nil => exact h
  | cons o _ ih => exact ih (h.trySend t o)

theorem Inv.endRound (h : Inv w) {round : OutRound} (hround : w.coalescer.outRound = some round)
    (hlanes : ∀ o, round.lanes o = false) {sent : ℕ → Bool} {popped : ℕ}
    {w' : World} (hw : w' = { w with
      coalescer := { w.coalescer with outRound := none, sentMask := sent }, popped := popped })
    (hdone : ∀ k, doneMask w' k = doneMask w k) (hrounds : Rounds w') : Inv w' := by
  subst hw
  refine ⟨hrounds,
    { h.emissions with covered := fun {k i} => ?_, stores := fun {k req} hreq hop hsep o m => ?_ },
    { h.table with entry := fun {tag e} he => ?_, waiting := fun hr' => by cases hr' },
    { h.deliveries with }⟩
  · rw [hdone]
    exact h.emissions.covered
  · rw [hdone]
    exact h.emissions.stores hreq hop hsep o m
  · obtain ⟨hreq, hne, hout⟩ := h.table.entry he
    refine ⟨hreq, hne, fun i => (hout i).trans (or_congr_right (iff_of_false ?_ ?_))⟩
    · rintro ⟨round', hr', hl', -⟩
      cases hround.symm.trans hr'
      rw [hlanes] at hl'
      cases hl'
    · rintro ⟨round', hr', -⟩
      cases hr'

theorem Inv.commitRound (h : Inv w) : Inv (commitRound w) := by
  unfold Coalescer.commitRound
  split
  · rename_i round req hround hreq
    split
    · exact h
    rename_i hnone
    obtain ⟨req', tag, hreq', hcur, hseeds, hbuilt⟩ := h.rounds.round hround
    cases hreq.symm.trans hreq'
    have hlanes : ∀ o, round.lanes o = false := by
      intro o
      by_contra hl
      rw [Bool.not_eq_false] at hl
      exact hnone (List.any_eq_true.mpr ⟨o, mem_range.mpr (hseeds o hl).1, hl⟩)
    have hcurs : ∀ {i}, round.curMask i = true →
        i < inputSize ∧ unsent req w.coalescer.sentMask i =
        true := by
      intro i hi
      rw [hcur] at hi
      exact roundMask_unsent hi
    have hhead : ∀ i, doneMask w w.popped i = (w.coalescer.sentMask i || round.curMask i) := by
      intro i
      rw [doneMask_head hround, hlanes, Bool.not_false, Bool.and_true]
    have hsub : ∀ {i}, (w.coalescer.sentMask i || round.curMask i) = true →
        i < inputSize ∧ req.mask i = true := by
      intro i hi
      rcases Bool.or_eq_true_iff.mp hi with hs | hc
      · obtain ⟨hlt, req', hreq'', hm⟩ := h.rounds.sent hs
        cases hreq.symm.trans hreq''
        exact ⟨hlt, hm⟩
      · exact ⟨(hcurs hc).1, (unsent_iff.mp (hcurs hc).2).2⟩
    simp only
    split
    · rename_i hall
      simp only [List.all_eq_true, mem_range, decide_eq_true_eq] at hall
      have hlt : w.popped < w.arrived.length := (List.getElem?_eq_some_iff.mp hreq).1
      refine h.endRound hround hlanes rfl (fun k => ?_)
        ⟨Nat.succ_le_of_lt hlt, h.rounds.nonempty, (fun hs => by cases hs),
        (fun _ _ _ _ _ _ hs => by cases hs), fun {req'} hr' _ => ?_, (fun hr' => by cases hr')⟩
      · funext i
        rcases lt_trichotomy k w.popped with hk | rfl | hk
        · simp only [doneMask, if_pos hk, if_pos (Nat.lt_succ_of_lt hk)]
        · rw [hhead]
          simp only [doneMask, if_pos (Nat.lt_succ_self _), hreq, any_some]
          by_cases hi : i < inputSize
          · rw [decide_eq_true hi, Bool.true_and, hall i hi]
          · rw [decide_eq_false hi, Bool.false_and]
            exact (Bool.not_eq_true _ ▸ fun hd =>
              hi (hsub hd).1 : (w.coalescer.sentMask i || round.curMask i) = false).symm
        · simp only [doneMask, if_neg (show ¬ k < w.popped + 1 by omega),
            if_neg (show ¬ k < w.popped by omega),
            if_neg (show k ≠ w.popped by omega), any_none, Bool.or_self, ite_self]
      · obtain ⟨i, hi, hm⟩ := h.rounds.nonempty hr'
        exact ⟨i, hi, unsent_iff.mpr ⟨rfl, hm⟩⟩
    · rename_i hnot
      refine h.endRound hround hlanes rfl (fun k => ?_) { h.rounds with
        sent := fun hs => ⟨(hsub hs).1, req, hreq, (hsub hs).2⟩,
        classes := fun {req' i j} hr' hop hj hm hgroup hline hs => ?_,
        left := fun {req'} hr' _ => ?_, round := fun hr' => by cases hr' }
      · funext i
        by_cases hk : k = w.popped
        · subst hk
          rw [hhead]
          simp [doneMask]
        · simp only [doneMask, if_neg hk]
      · cases hreq.symm.trans hr'
        refine Bool.or_eq_true_iff.mpr ?_
        rcases Bool.or_eq_true_iff.mp hs with hs | hc
        · exact .inl (h.rounds.classes hreq hop hj hm hgroup hline hs)
        · cases hsj : w.coalescer.sentMask j with
          | true => exact .inl rfl
          | false =>
            rw [hcur] at hc ⊢
            exact .inr (roundMask_class hop hc hj (unsent_iff.mpr ⟨hsj, hm⟩) hgroup hline)
      · cases hreq.symm.trans hr'
        rw [List.all_eq_true] at hnot
        push Not at hnot
        obtain ⟨i, hi, hne⟩ := hnot
        rw [ne_eq, decide_eq_true_eq] at hne
        refine ⟨i, mem_range.mp hi, unsent_iff.mpr ?_⟩
        cases hd : (w.coalescer.sentMask i || round.curMask i) with
        | true => exact absurd (hd.trans (hsub hd).2.symm) hne
        | false =>
          refine ⟨hd, ?_⟩
          rw [hd] at hne
          exact (Bool.not_eq_false _).mp fun hm => hne hm.symm
  · exact h

theorem Inv.flushOutRound (h : Inv w) (t : Tick) : Inv (flushOutRound t w) :=
  (h.trySends t _).commitRound

end Moves

end VortexGpu.Coalescer

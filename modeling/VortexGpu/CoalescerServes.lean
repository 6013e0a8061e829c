import Mathlib.Data.Finset.Prod
import VortexGpu.CoalescerSteps

/-!
# What the coalescer does for a request

On every run the lanes of a request are covered by exactly one emitted request each, atomics are
emitted alone, and the responses reach each lane once; and from every state there is a run on which
all requests are answered. The stores of a group leave the memory as if its lanes had stored one
after the other, as long as lanes on different lines do not enable a byte in common.
-/

namespace VortexGpu.Coalescer
open Option Finset Config

open ByteMem (Mem)
open Cache (MemRsp)
open Runs

section Progress

variable [Config] {w : World} {t : Tick}

def uncovered (w : World) : Finset (ℕ × ℕ) :=
  (range w.arrived.length ×ˢ range inputSize).filter fun p =>
    w.arrived[p.1]?.any (fun req => req.mask p.2) = true ∧
      w.emitted.any (fun e => decide (e.request = p.1) && e.cover p.2) = false

def owedPairs (w : World) : Finset (ℕ × ℕ) :=
  (range outputSize ×ˢ range queueSize).filter fun p => (w.owed p.1 p.2).isSome = true

def rank (w : World) : ℕ :=
  (2 * (uncovered w).card + if w.coalescer.outRound.isNone then 1 else 0) *
    (outputSize * queueSize + 1) + (owedPairs w).card

theorem owedPairs_card_le (w : World) : (owedPairs w).card ≤ outputSize * queueSize := by
  refine (card_filter_le _ _).trans ?_
  rw [card_product, card_range, card_range]

def helpfulTick (w : World) : Tick where
  rspIn j := ((List.range queueSize).find? fun tag => (w.owed j tag).isSome).map fun tag =>
    ⟨tag, 0, 0, none⟩
  rspFull := false
  accept _ := true
  input := none

theorem helpfulTick_owed {j : ℕ} {r : MemRsp} (h : (helpfulTick w).rspIn j = some r) :
    ∃ n, w.owed j r.tag = some n := by
  obtain ⟨tag, htag, rfl⟩ := map_eq_some_iff.mp h
  have hsome := List.find?_some htag
  exact isSome_iff_exists.mp hsome

theorem helpfulTick_contract (w : World) : Contract w (helpfulTick w) = true := by
  simp only [Contract, Bool.and_eq_true, List.all_eq_true]
  refine ⟨fun j _ => ?_, rfl⟩
  cases hr : (helpfulTick w).rspIn j with
  | none => rfl
  | some r => exact isSome_iff_exists.mpr (helpfulTick_owed hr)

theorem uncovered_congr {w' : World} (harrived : w'.arrived = w.arrived)
    (hemitted : w'.emitted = w.emitted) : uncovered w' = uncovered w := by
  simp only [uncovered, harrived, hemitted]

theorem Inv.uncovered_issue (h : Inv w) {round : OutRound} {o : ℕ}
    (hround : w.coalescer.outRound = some round) (hlanes : round.lanes o = true) :
    (uncovered (Coalescer.issue w round o)).card < (uncovered w).card := by
  obtain ⟨req, hreq, hserves⟩ := h.issue_serves hround hlanes
  obtain ⟨i, hi⟩ := hserves.nonempty
  obtain ⟨hlt, -, hmask⟩ := hserves.lanes hi
  refine card_lt_card (ssubset_iff_of_subset ?_ |>.mpr ⟨(w.popped, i), ?_, ?_⟩)
  · intro p hp
    rw [uncovered, mem_filter] at hp ⊢
    refine ⟨hp.1, hp.2.1, ?_⟩
    have hany :
        (w.emitted ++ [(⟨w.popped, o, issueCover round o, round.reqs o⟩ : Emission)]).any
        (fun e => decide (e.request = p.1) && e.cover p.2) = false := hp.2.2
    rw [List.any_append, Bool.or_eq_false_iff] at hany
    exact hany.1
  · rw [uncovered, mem_filter, mem_product, mem_range, mem_range]
    refine ⟨⟨(List.getElem?_eq_some_iff.mp hreq).1, hlt⟩, by rw [hreq, any_some, hmask], ?_⟩
    by_contra hany
    rw [Bool.not_eq_false, List.any_eq_true] at hany
    obtain ⟨e, he, hp⟩ := hany
    rw [Bool.and_eq_true, decide_eq_true_eq] at hp
    obtain ⟨n, hn⟩ := List.getElem?_of_mem he
    have hdone := h.emissions.covered.mpr ⟨n, e, hn, hp.1, hp.2⟩
    rw [h.issue_new hround hlanes hi] at hdone
    cases hdone
  · rw [uncovered, mem_filter]
    rintro ⟨-, -, hany⟩
    have hlast :
        (w.emitted ++ [(⟨w.popped, o, issueCover round o, round.reqs o⟩ : Emission)]).any
        (fun e => decide (e.request = w.popped) && e.cover i) = true := by
      rw [List.any_append, Bool.or_eq_true]
      refine .inr (List.any_eq_true.mpr ⟨_, List.mem_singleton_self _, ?_⟩)
      simpa using hi
    cases hlast.symm.trans hany

theorem trySend_arrived (t : Tick) (w : World) (o : ℕ) : (trySend t w o).arrived = w.arrived := by
  unfold trySend
  split
  · split <;> rfl
  · rfl

theorem trySends_arrived (t : Tick) (l : List ℕ) (w : World) :
    (l.foldl (trySend t) w).arrived = w.arrived := by
  induction l generalizing w with
  | nil => rfl
  | cons o l ih => exact (ih _).trans (trySend_arrived t w o)

theorem Inv.uncovered_trySend (h : Inv w) (t : Tick) (o : ℕ) :
    (uncovered (Coalescer.trySend t w o)).card ≤ (uncovered w).card := by
  unfold Coalescer.trySend
  split
  · rename_i round hround
    split
    · rename_i hsend
      exact (h.uncovered_issue hround (Bool.and_eq_true_iff.mp hsend).1).le
    · exact le_refl _
  · exact le_refl _

theorem Inv.uncovered_trySends (h : Inv w) (t : Tick) (l : List ℕ) :
    (uncovered (l.foldl (Coalescer.trySend t) w)).card ≤ (uncovered w).card := by
  induction l generalizing w with
  | nil => exact le_refl _
  | cons o l ih => exact (ih (h.trySend t o)).trans (h.uncovered_trySend t o)

theorem Inv.uncovered_flush (h : Inv w) {round : OutRound} {o : ℕ}
    (hround : w.coalescer.outRound = some round)
    (hlanes : round.lanes o = true) (haccept : ∀ j, t.accept j = true) {l : List ℕ}
    (ho : o ∈ l) : (uncovered (l.foldl (Coalescer.trySend t) w)).card < (uncovered w).card := by
  induction l with
  | nil => exact absurd ho List.not_mem_nil
  | cons a l ih =>
    rw [List.foldl_cons]
    by_cases ha : round.lanes a = true
    · have hsend : Coalescer.trySend t w a = Coalescer.issue w round a := by
        simp [Coalescer.trySend, hround, ha, haccept]
      rw [hsend]
      exact ((h.issue hround ha).uncovered_trySends t l).trans_lt (h.uncovered_issue hround ha)
    · have hskip : Coalescer.trySend t w a = w := by
        simp [Coalescer.trySend, hround, ha]
      rw [hskip]
      rcases List.mem_cons.mp ho with rfl | hin
      · exact absurd hlanes ha
      · exact ih hin

theorem commitRound_arrived (w : World) :
    (commitRound w).arrived = w.arrived ∧ (commitRound w).emitted = w.emitted := by
  unfold commitRound
  split
  · split
    · exact ⟨rfl, rfl⟩
    · simp only
      split <;> exact ⟨rfl, rfl⟩
  · exact ⟨rfl, rfl⟩

theorem rank_lt {w' : World}
    (h : 2 * (uncovered w').card + (if w'.coalescer.outRound.isNone then 1 else 0) <
        2 * (uncovered w).card + (if w.coalescer.outRound.isNone then 1 else 0) ∨
      2 * (uncovered w').card + (if w'.coalescer.outRound.isNone then 1 else 0) =
        2 * (uncovered w).card + (if w.coalescer.outRound.isNone then 1 else 0) ∧
      (owedPairs w').card < (owedPairs w).card) : rank w' < rank w := by
  have hle := owedPairs_card_le w'
  unfold rank
  rcases h with hlt | ⟨heq, hlt⟩
  · have := Nat.mul_le_mul_right (outputSize * queueSize + 1) (Nat.succ_le_of_lt hlt)
    rw [Nat.succ_mul] at this
    omega
  · rw [heq]
    omega

def Drained (w : World) : Prop :=
  w.popped = w.arrived.length ∧ ∀ n e, w.emitted[n]? = some e →
    needsRsp e.req.op = true → ∃ r, w.answer n = some r

theorem Inv.owed_lt (h : Inv w) {o tag n : ℕ} (hn : w.owed o tag = some n) :
    o < outputSize ∧ tag < queueSize := by
  obtain ⟨e, he, hch, -, -, -, entry, hentry⟩ := h.table.owed hn
  obtain ⟨req, -, hserves⟩ := h.emissions.serves he
  refine ⟨hch ▸ hserves.channel_lt, ?_⟩
  by_contra hge
  rw [h.table.tags (by omega)] at hentry
  cases hentry

theorem Inv.pending_none (h : Inv w) (hnone : w.coalescer.outRound = none)
    (howed : ∀ o tag, w.owed o tag = none) (tag : ℕ) :
    w.coalescer.pendingRdReqs tag = none := by
  by_contra hne
  obtain ⟨entry, hentry⟩ := ne_none_iff_exists'.mp hne
  obtain ⟨-, ⟨i, -, hi⟩, hout⟩ := h.table.entry hentry
  rcases (hout i).mp hi with ⟨n, e, hn, -⟩ | ⟨round, hround, -⟩
  · rw [howed] at hn
    cases hn
  · rw [hnone] at hround
    cases hround

theorem Inv.helpful (h : Inv w) (hlive : Live w) (hgoal : ¬ Drained w) :
    ∃ w', Coalescer.onTick w (helpfulTick w) = some (w', ()) ∧ Inv w' ∧ Live w' ∧
    w'.arrived = w.arrived ∧ rank w' < rank w := by
  have howed := Contract.owedHeads (helpfulTick_contract w)
  obtain ⟨w1, h1, hinv1, hcases⟩ := h.responseStep howed
  have hsame : w1.arrived = w.arrived ∧ w1.emitted = w.emitted ∧
      w1.coalescer.outRound = w.coalescer.outRound ∧ w1.popped = w.popped := by
    rcases hcases with ⟨rfl, -⟩ | ⟨o, rsp0, entry, -, -, rfl⟩ <;>
      exact ⟨rfl, rfl, rfl, rfl⟩
  obtain ⟨harrived, hemitted, hround1, hpopped⟩ := hsame
  have hlive1 : Live w1 := by
    intro round hround
    exact hlive round (hround1.symm.trans hround)
  obtain ⟨w2, h2, hinv2, hlive2, hreq⟩ := hinv1.requestStep hlive1 (helpfulTick w)
  have hun1 : uncovered w1 = uncovered w := uncovered_congr harrived hemitted
  have htick : Coalescer.onTick w (helpfulTick w) = some ({ w2 with arrived := w2.arrived ++ [] },
      ()) := by
    simp only [Coalescer.onTick, h1, bind_some, h2, map_some]
    rfl
  rw [List.append_nil] at htick
  refine ⟨w2, htick, hinv2, hlive2, ?_⟩
  rcases hreq with ⟨⟨round, hround⟩, rfl⟩ | ⟨hnone, rfl, hstuck⟩ |
    ⟨hnone, hsome, harr, hem⟩
  · -- a round is issued
    obtain ⟨o, ho, hl⟩ := hlive1 round hround
    have hdec :=
      hinv1.uncovered_flush hround hl (t := helpfulTick w) (fun _ => rfl) (List.mem_range.mpr ho)
    obtain ⟨hcarr, hcem⟩ :=
      commitRound_arrived ((List.range outputSize).foldl (Coalescer.trySend (helpfulTick w)) w1)
    refine ⟨hcarr.trans ((trySends_arrived _ _ _).trans harrived), rank_lt (.inl ?_)⟩
    rw [Coalescer.flushOutRound, uncovered_congr hcarr hcem, ← hround1, hround]
    rw [hun1] at hdec
    split <;> omega
  · -- nothing can be issued, so something is owed
    refine ⟨harrived, rank_lt (.inr ⟨by rw [hun1, hround1], ?_⟩)⟩
    have hnone' : w.coalescer.outRound = none := hround1.symm.trans hnone
    rcases hcases with ⟨rfl, hfull | hempty⟩ | ⟨o, rsp0, entry, ho, hrsp, rfl⟩
    · cases hfull
    · exfalso
      have hzero : ∀ o tag, w2.owed o tag = none := by
        intro o tag
        by_contra hne
        obtain ⟨n, hn⟩ := ne_none_iff_exists'.mp hne
        obtain ⟨ho, htag⟩ := h.owed_lt hn
        have hfind := map_eq_none_iff.mp (hempty o ho)
        have := List.find?_eq_none.mp hfind tag (List.mem_range.mpr htag)
        rw [hn] at this
        exact this rfl
      refine hgoal ⟨?_, fun n e he hneeds => ?_⟩
      · rcases hstuck with hhead | hfull
        · have hle := h.rounds.popped_le
          have hge := List.getElem?_eq_none_iff.mp hhead
          omega
        · obtain ⟨e, he⟩ := TagTable.full_iff.mp hfull 0 queue_pos
          rw [h.pending_none hnone' hzero] at he
          cases he
      · cases hans : w2.answer n with
        | none =>
          have := h.table.unanswered he hneeds hans
          rw [hzero] at this
          cases this
        | some r => exact ⟨r, rfl⟩
    · obtain ⟨n, hn⟩ := helpfulTick_owed hrsp
      obtain ⟨-, htag⟩ := h.owed_lt hn
      refine card_lt_card (ssubset_iff_of_subset ?_ |>.mpr ⟨(o, rsp0.tag), ?_, ?_⟩)
      · intro p hp
        rw [owedPairs, mem_filter] at hp ⊢
        obtain ⟨m, hm⟩ := isSome_iff_exists.mp hp.2
        exact ⟨hp.1, isSome_iff_exists.mpr ⟨m, (answered_owed.mp hm).1⟩⟩
      · rw [owedPairs, mem_filter, mem_product, mem_range, mem_range]
        exact ⟨⟨ho, htag⟩, isSome_iff_exists.mpr ⟨n, hn⟩⟩
      · rw [owedPairs, mem_filter]
        rintro ⟨-, hsome⟩
        obtain ⟨m, hm⟩ := isSome_iff_exists.mp hsome
        exact (answered_owed.mp hm).2 ⟨laneMask_iff.mpr ⟨ho, le_refl _, rsp0, hrsp, rfl⟩,
          rfl⟩
  · -- a round is built
    refine ⟨harr.trans harrived, rank_lt (.inl ?_)⟩
    obtain ⟨round, hround⟩ := ne_none_iff_exists'.mp hsome
    rw [uncovered_congr harr hem, hun1, ← hround1, hnone, hround]
    simp only [isNone_some, isNone_none, Bool.false_eq_true, if_false, if_true]
    omega

theorem Inv.drains (h : Inv w) (hlive : Live w) :
    ∃ ticks w' bs, Along Coalescer.onTick (Contract · ·) w ticks ∧
    run Coalescer.onTick w ticks = some (w', bs) ∧ w'.arrived = w.arrived ∧ Drained w' := by
  have hrun : ∃ ticks w' bs, Along Coalescer.onTick (Contract · ·) w ticks ∧
      run Coalescer.onTick w ticks = some (w', bs) ∧
      (Inv w' ∧ Live w' ∧ w'.arrived = w.arrived) ∧
      Drained w' := run_until (C := fun w t => Contract w t = true)
    (I := fun w' => Inv w' ∧ Live w' ∧ w'.arrived = w.arrived) (G := Drained) rank
    (fun w' hI hG => by
      obtain ⟨w'', htick, hinv, hlive', harr, hlt⟩ := hI.1.helpful hI.2.1 hG
      exact ⟨_, w'', (), helpfulTick_contract w', htick, ⟨hinv, hlive', harr.trans hI.2.2⟩,
        hlt⟩) ⟨h, hlive, rfl⟩
  obtain ⟨ticks, w', bs, halong, hrun, ⟨-, -, harr⟩, hgoal⟩ := hrun
  exact ⟨ticks, w', bs, halong, hrun, harr, hgoal⟩

/-- What has been done for the `k`-th request. The response to an emitted request is the one that
the memory gave on its channel under its tag. -/
structure Serviced (w : World) (k : ℕ) (req : LsuReq) : Prop where
  covered : k < w.popped → ∀ i < inputSize, req.mask i = true → ∃ (n : ℕ) (e : Emission),
    w.emitted[n]? = some e ∧ e.request = k ∧ e.cover i = true
  once : ∀ (n m : ℕ) (e e' : Emission) (i : ℕ), w.emitted[n]? = some e →
    w.emitted[m]? = some e' →
    e.request = k → e'.request = k → e.cover i = true → e'.cover i = true → n = m
  serves : ∀ e ∈ w.emitted, e.request = k → Serves req e
  answered : ∀ (n : ℕ) (e : Emission) (i : ℕ) (r : MemRsp), w.emitted[n]? = some e →
    e.request = k →
    e.cover i = true → w.answer n = some r → ∃ rsp, deliveriesOf w k i = [rsp] ∧
    rsp.tag = req.tag ∧
    rsp.data i = r.data
  unanswered : ∀ i, (∀ (n : ℕ) (e : Emission), w.emitted[n]? = some e → e.request = k →
    e.cover i = true → w.answer n = none) → deliveriesOf w k i = []
  stores : k < w.popped → req.op = .st → Separate req → ∀ o m,
    (w.emitted.filter fun e => decide (e.request = k) &&
      decide (e.channel = o)).foldl Emission.store m =
      ((groupLanes o).filter fun i => decide (i < inputSize) && req.mask i).foldl (storeLane req) m

theorem Inv.serviced {w : World} (h : Inv w) {k : ℕ} {req : LsuReq}
    (hreq : w.arrived[k]? = some req) : Serviced w k req := by
  have hdone : k < w.popped → doneMask w k = fun i => decide (i < inputSize) && req.mask i := by
    intro hk
    funext i
    rw [doneMask, if_pos hk, hreq, any_some]
  refine ⟨fun hk i hi hm => ?_, fun n m e e' i he he' hk hk' =>
    h.emissions.unique he he' (hk.trans hk'.symm), fun e he hk => ?_,
    fun n e i r he hk hi hans => ?_, fun i => h.deliveries.unanswered, fun hk hop hsep o m => ?_⟩
  · refine h.emissions.covered.mp ?_
    rw [hdone hk]
    simp [hm, decide_eq_true hi]
  · obtain ⟨n, hn⟩ := List.getElem?_of_mem he
    obtain ⟨req', hreq', hserves⟩ := h.emissions.serves hn
    rw [hk] at hreq'
    cases hreq.symm.trans hreq'
    exact hserves
  · obtain ⟨rsp, req', hreq', hdel, htag, hdata⟩ := h.deliveries.answered he hi hans
    rw [hk] at hreq' hdel
    cases hreq.symm.trans hreq'
    exact ⟨rsp, hdel, htag, hdata⟩
  · have := h.emissions.stores hreq hop hsep o m
    rwa [hdone hk] at this

/-- Every run serves its requests, and every state that it reaches can be drained. -/
theorem coalescer_serves {ticks : List Tick}
    (h : Along onTick (Contract · ·) World.reset ticks) :
    ∃ w bs, run onTick World.reset ticks = some (w, bs) ∧
    (∀ k req, w.arrived[k]? = some req → Serviced w k req) ∧
      ∃ more w' bs', Along onTick (Contract · ·) w more ∧
      run onTick w more = some (w', bs') ∧ w'.arrived = w.arrived ∧ Drained w' := by
  obtain ⟨w, bs, hrun, hinv, hlive⟩ :=
    run_keeps (I := fun w => Inv w ∧ Live w) (fun w t hI hC => by
    obtain ⟨w', hw', hI'⟩ := Inv.onTick hI.1 hI.2 hC
    exact ⟨w', (), hw', hI'⟩) ⟨Inv.reset, fun round hround => by cases hround⟩ h
  exact ⟨w, bs, hrun, fun k req hreq => hinv.serviced hreq, hinv.drains hlive⟩

end Progress

/-! Three lanes on one channel with lines of 16 bytes. -/

abbrev oneChannel : Config where
  outputSize := 1
  outputRatio := 3
  lineBits := 4
  queueSize := 2
  logWarps := 2
  logThreads := 2
  ioBase := 0
  ioEnd := 0
  lmemEnabled := false
  lmemBase := 0
  lmemLogSize := 0
  ratio_pos := by decide
  queue_pos := Nat.two_pos
  line_le := by decide

/-- Word stores of lane `i` with the bytes `i + 1`. -/
def wordStores (addrs : ℕ → ℕ) : LsuReq where
  op := .st
  flags := ⟨false, false, false, false⟩
  addrs
  data i := some fun _ => (i + 1).toUInt8
  byteen i := 15 <<< (addrs i % 64)
  mask _ := true
  tids i := i
  tag := 0
  cid := 0
  wid := 0
  uuid := 0

def quietTick : Tick := ⟨fun _ => none, false, fun _ => true, none⟩

def storeTicks (req : LsuReq) : List Tick :=
  [{ quietTick with input := some req }, quietTick, quietTick, quietTick, quietTick]

def storedByte (w : World) (x : ℕ) : UInt8 := w.emitted.foldl Emission.store (fun _ => 0) x

theorem coalescer_serves_aligned :
    letI := oneChannel
    let req := wordStores fun i => if i = 1 then 12 else 16
    Along onTick (Contract · ·) World.reset (storeTicks req) ∧ Separate req ∧
    ∃ w bs, run onTick World.reset (storeTicks req) = some (w, bs) ∧ w.popped = 1 ∧
      ∀ k req', w.arrived[k]? = some req' → Serviced w k req' := by
  let := oneChannel
  intro req
  refine (and_iff_left_of_imp fun halong => ?_).mpr (by decide +kernel)
  have hpopped : (run onTick World.reset (storeTicks req)).map (fun r => r.1.popped) = some 1 := by
    decide +kernel
  obtain ⟨w, bs, hrun, hserviced, -⟩ := coalescer_serves halong
  rw [hrun, map_some, some_inj] at hpopped
  exact ⟨by decide +kernel, w, bs, hrun, hpopped, hserviced⟩

/-- Lane 1 stores over the end of its line; lanes 0 and 2 share the next one and are moved before
it. -/
theorem stores_reordered :
    letI := oneChannel
    let req := wordStores fun i => if i = 1 then 14 else 16
    Along onTick (Contract · ·) World.reset (storeTicks req) ∧
    (run onTick World.reset (storeTicks req)).map (fun r => (r.1.popped, storedByte r.1 16)) =
      some (1, 2) ∧ (groupLanes 0).foldl (storeLane req) (fun _ => 0) 16 = 3 := by
  decide +kernel

end VortexGpu.Coalescer

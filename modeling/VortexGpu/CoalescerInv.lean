import VortexGpu.CoalescerRounds

/-!
# The invariant of the coalescer

The lanes of the request at the head are sent line by line; a lane is done when an emitted request
covers it, which no second one does. An entry of the table stands for the lanes of its round whose
response is still to come. A lane is delivered upstream when its emission is answered.
-/

namespace VortexGpu.Coalescer

open ByteMem (Mem)
open Cache (MemRsp)
open Config

variable [Config]

/-- What one emitted request is for the request it belongs to. -/
structure Serves (req : LsuReq) (e : Emission) : Prop where
  op : e.req.op = req.op
  channel_lt : e.channel < outputSize
  lanes : ∀ {i}, e.cover i = true → i < inputSize ∧ i / outputRatio = e.channel ∧
    req.mask i = true
  nonempty : ∃ i, e.cover i = true
  line : req.op.isAtomic = false → ∀ {i}, e.cover i = true →
    e.req.addr = lineAddr (req.addrs i)
  alone : req.op.isAtomic = true → ∀ {i}, e.cover i = true →
    e.req.addr = req.addrs i ∧ ∀ {j}, e.cover j = true → j = i

def doneMask (w : World) (k i : ℕ) : Bool :=
  if k < w.popped then decide (i < inputSize) && w.arrived[k]?.any fun req => req.mask i
  else if k = w.popped then
    w.coalescer.sentMask i || w.coalescer.outRound.any fun round =>
      round.curMask i && !round.lanes (i / outputRatio)
  else false

def deliveriesOf (w : World) (k i : ℕ) : List LsuRsp :=
  (w.delivered.filter fun d => decide (d.1 = k) && d.2.mask i).map Prod.snd

def Outstanding (w : World) (tag i : ℕ) : Prop :=
  (∃ n e, w.owed (i / outputRatio) tag = some n ∧ w.emitted[n]? = some e ∧
    e.cover i = true) ∨
  ∃ round, w.coalescer.outRound = some round ∧ round.lanes (i / outputRatio) = true ∧
    round.curMask i = true ∧
    (round.reqs (i / outputRatio)).tag = tag ∧ needsRsp (round.reqs (i / outputRatio)).op = true

structure Rounds (w : World) : Prop where
  popped_le : w.popped ≤ w.arrived.length
  nonempty : ∀ {k : ℕ} {req : LsuReq}, w.arrived[k]? = some req →
    ∃ i < inputSize, req.mask i = true
  sent : ∀ {i}, w.coalescer.sentMask i = true →
    i < inputSize ∧ ∃ req, w.arrived[w.popped]? = some req ∧ req.mask i = true
  classes : ∀ {req i j}, w.arrived[w.popped]? = some req → req.op.isAtomic = false →
    j < inputSize → req.mask j = true →
    i / outputRatio = j / outputRatio → lineAddr (req.addrs i) = lineAddr (req.addrs j) →
    w.coalescer.sentMask i = true → w.coalescer.sentMask j = true
  left : ∀ {req}, w.arrived[w.popped]? = some req → w.coalescer.outRound = none →
    ∃ i < inputSize, unsent req w.coalescer.sentMask i = true
  round : ∀ {round}, w.coalescer.outRound = some round → ∃ req tag,
    w.arrived[w.popped]? = some req ∧ round.curMask = roundMask req w.coalescer.sentMask ∧
    (∀ o, round.lanes o = true →
      o < outputSize ∧ ∃ r, seed req w.coalescer.sentMask o = some r) ∧
    ∀ o r, seed req w.coalescer.sentMask o = some r →
      round.reqs o = buildReq req round.curMask tag o r

structure Emissions (w : World) : Prop where
  serves : ∀ {n : ℕ} {e : Emission}, w.emitted[n]? = some e →
    ∃ req, w.arrived[e.request]? = some req ∧ Serves req e
  covered : ∀ {k i}, doneMask w k i = true ↔
    ∃ (n : ℕ) (e : Emission), w.emitted[n]? = some e ∧ e.request = k ∧ e.cover i = true
  unique : ∀ {n m : ℕ} {e e' : Emission} {i : ℕ},
    w.emitted[n]? = some e → w.emitted[m]? = some e' →
    e.request = e'.request → e.cover i = true → e'.cover i = true → n = m
  stores : ∀ {k : ℕ} {req : LsuReq}, w.arrived[k]? = some req → req.op = .st →
    Separate req → ∀ o m, (w.emitted.filter fun e => decide (e.request = k) &&
      decide (e.channel = o)).foldl Emission.store m =
      ((groupLanes o).filter (doneMask w k)).foldl (storeLane req) m

structure Table (w : World) : Prop where
  tags : ∀ {tag}, queueSize ≤ tag → w.coalescer.pendingRdReqs tag = none
  entry : ∀ {tag entry}, w.coalescer.pendingRdReqs tag = some entry →
    (∃ req, w.arrived[w.holder tag]? = some req ∧ needsRsp req.op = true ∧
      entry.tag = req.tag) ∧
    (∃ i < inputSize, entry.mask i = true) ∧ ∀ i, entry.mask i = true ↔ Outstanding w tag i
  owed : ∀ {o tag n}, w.owed o tag = some n →
    ∃ e, w.emitted[n]? = some e ∧ e.channel = o ∧ e.req.tag = tag ∧
    e.request = w.holder tag ∧ w.answer n = none ∧ ∃ entry,
    w.coalescer.pendingRdReqs tag = some entry
  unanswered : ∀ {n : ℕ} {e : Emission}, w.emitted[n]? = some e → needsRsp e.req.op = true →
    w.answer n = none → w.owed e.channel e.req.tag = some n
  fresh : ∀ {n}, w.emitted.length ≤ n → w.answer n = none
  waiting : ∀ {round o}, w.coalescer.outRound = some round → round.lanes o = true →
    needsRsp (round.reqs o).op = true → w.holder (round.reqs o).tag = w.popped ∧
    (∃ entry, w.coalescer.pendingRdReqs (round.reqs o).tag = some entry) ∧
    w.owed o (round.reqs o).tag = none

structure Deliveries (w : World) : Prop where
  unanswered : ∀ {k i},
    (∀ (n : ℕ) (e : Emission), w.emitted[n]? = some e → e.request = k →
      e.cover i = true → w.answer n = none) → deliveriesOf w k i = []
  answered : ∀ {n : ℕ} {e : Emission} {i : ℕ} {r : MemRsp}, w.emitted[n]? = some e →
    e.cover i = true → w.answer n = some r →
    ∃ rsp req, w.arrived[e.request]? = some req ∧ deliveriesOf w e.request i = [rsp] ∧
    rsp.tag = req.tag ∧ rsp.data i = r.data

structure Inv (w : World) : Prop where
  rounds : Rounds w
  emissions : Emissions w
  table : Table w
  deliveries : Deliveries w

theorem Inv.reset : Inv World.reset := by
  have hnone : ∀ n : ℕ, ([] : List Emission)[n]? = none := fun n => List.getElem?_nil
  have hdone : ∀ k i, doneMask World.reset k i = false := by
    intro k i
    unfold doneMask
    split
    · rename_i h
      exact absurd h (Nat.not_lt_zero k)
    · split <;> rfl
  have hcovered : ∀ {k i}, doneMask World.reset k i = true ↔
      ∃ (n : ℕ) (e : Emission), World.reset.emitted[n]? = some e ∧ e.request = k ∧
      e.cover i = true := by
    intro k i
    refine iff_of_false (by simp [hdone]) ?_
    rintro ⟨n, e, he, -⟩
    cases (hnone n).symm.trans he
  refine ⟨⟨le_refl _, fun h => ?_, fun h => ?_, fun h => ?_, fun h => ?_, fun h => ?_⟩,
    ⟨fun h => ?_, hcovered, fun h => ?_, fun h => ?_⟩,
    ⟨fun _ => rfl, fun h => ?_, fun h => ?_, fun h => ?_, fun _ => rfl, fun h => ?_⟩,
    ⟨fun _ => rfl, fun h => ?_⟩⟩
  all_goals cases h

end VortexGpu.Coalescer

import VortexGpu.CacheBank
import VortexGpu.Runs
import VortexGpu.TagTable

/-!
# The memory coalescer

`MemCoalescer` between the lanes of a load/store unit and the channels of the data cache, one for
each group of lanes. In a round each group sends one request, for its first lane that was not sent
yet with the later ones on the same line; the requests are issued as the channels take them. The
responses to one round that arrive together are merged.

Beside the unit the model keeps the requests, emissions and responses so far.
-/

namespace VortexGpu.Coalescer
open List
open Function (update)

open Cache (MemOp MemBlock MemRsp zeroBlock mergeBlock)

class Config where
  outputSize : ℕ
  outputRatio : ℕ
  lineBits : ℕ
  queueSize : ℕ
  logWarps : ℕ
  logThreads : ℕ
  ioBase : ℕ
  ioEnd : ℕ
  lmemEnabled : Bool
  lmemBase : ℕ
  lmemLogSize : ℕ
  ratio_pos : 0 < outputRatio
  queue_pos : 0 < queueSize
  line_le : lineBits ≤ 6

open Config
variable [Config]

def inputSize : ℕ := outputSize * outputRatio

structure MemFlags where
  strsp : Bool
  io : Bool
  isLocal : Bool
  amoUnsigned : Bool
deriving DecidableEq, Repr

structure LsuReq where
  op : MemOp
  flags : MemFlags
  addrs : ℕ → ℕ
  data : ℕ → Option MemBlock
  byteen : ℕ → ℕ
  mask : ℕ → Bool
  tids : ℕ → ℕ
  tag : ℕ
  cid : ℕ
  wid : ℕ
  uuid : ℕ

structure LsuRsp where
  mask : ℕ → Bool
  tag : ℕ
  cid : ℕ
  uuid : ℕ
  data : ℕ → Option MemBlock

structure MemReq where
  op : MemOp
  addr : ℕ
  data : Option MemBlock
  byteen : ℕ
  tag : ℕ
  hartId : ℕ
  uuid : ℕ
  flags : MemFlags

def isWrite (op : MemOp) : Bool := decide (op = .st) || decide (op = .amoSc) || op.isAmoRmw

def needsRsp (op : MemOp) : Bool := !isWrite op || op.isAtomic

inductive AddrType
  | global | shared | io
deriving DecidableEq, Repr

def getAddrType (addr : ℕ) : AddrType :=
  if ioBase ≤ addr ∧ addr < ioEnd then .io
  else if lmemEnabled ∧ lmemBase ≤ addr ∧ addr - lmemBase < 2 ^ lmemLogSize then .shared
  else .global

def makeHartId (cid wid tid : ℕ) : ℕ :=
  ((cid <<< (logWarps + logThreads)) ||| (wid <<< logThreads) ||| tid) % 2 ^ 32

def lineAddr (addr : ℕ) : ℕ := addr / 2 ^ lineBits * 2 ^ lineBits

structure PendingReq where
  tag : ℕ
  mask : ℕ → Bool

structure OutRound where
  lanes : ℕ → Bool
  reqs : ℕ → MemReq
  curMask : ℕ → Bool

structure State where
  pendingRdReqs : ℕ → Option PendingReq
  sentMask : ℕ → Bool
  outRound : Option OutRound

def unsent (req : LsuReq) (sent : ℕ → Bool) (i : ℕ) : Bool := !sent i && req.mask i

def seed (req : LsuReq) (sent : ℕ → Bool) (o : ℕ) : Option ℕ :=
  (range outputRatio).find? fun r => unsent req sent (o * outputRatio + r)

def roundMask (req : LsuReq) (sent : ℕ → Bool) (i : ℕ) : Bool :=
  decide (i < inputSize) && (seed req sent (i / outputRatio)).any fun r =>
    decide (i % outputRatio = r) ||
      (!req.op.isAtomic && decide (r < i % outputRatio) && unsent req sent i &&
        decide (lineAddr (req.addrs i) = lineAddr (req.addrs (i / outputRatio * outputRatio + r))))

def mergeLane (req : LsuReq) (acc : Option MemBlock × ℕ) (j : ℕ) : Option MemBlock × ℕ :=
  match req.data j with
  | some d => (some (mergeBlock (acc.1.getD zeroBlock) d (req.byteen j)), acc.2 ||| req.byteen j)
  | none => acc

def groupLanes (o : ℕ) : List ℕ := (range outputRatio).map (o * outputRatio + ·)

def mergeLanes (req : LsuReq) (curMask : ℕ → Bool) (o : ℕ) : Option MemBlock × ℕ :=
  ((groupLanes o).filter curMask).foldl (mergeLane req) (none, 0)

def buildReq (req : LsuReq) (curMask : ℕ → Bool) (tag o r : ℕ) : MemReq :=
  let i := o * outputRatio + r
  let addr := if req.op.isAtomic then req.addrs i else lineAddr (req.addrs i)
  let merged := if isWrite req.op || req.op.isAtomic then mergeLanes req curMask o else (none, 0)
  let t := getAddrType addr
  ⟨req.op, addr, merged.1, merged.2, tag,
    makeHartId req.cid req.wid (if req.op.isAtomic then req.tids i else 0), req.uuid,
    { req.flags with io := decide (t = .io), isLocal := decide (t = .shared) }⟩

def newRound (req : LsuReq) (sent : ℕ → Bool) (tag : ℕ) : OutRound where
  lanes o := decide (o < outputSize) && (seed req sent o).isSome
  reqs o := buildReq req (roundMask req sent) tag o ((seed req sent o).getD 0)
  curMask := roundMask req sent

structure Emission where
  request : ℕ
  channel : ℕ
  cover : ℕ → Bool
  req : MemReq

structure World where
  coalescer : State
  arrived : List LsuReq
  popped : ℕ
  emitted : List Emission
  holder : ℕ → ℕ
  owed : ℕ → ℕ → Option ℕ
  answer : ℕ → Option MemRsp
  delivered : List (ℕ × LsuRsp)

def World.reset : World :=
  ⟨⟨fun _ => none, fun _ => false, none⟩, [], 0, [], fun _ => 0, fun _ _ => none,
    fun _ => none, []⟩

/-- What the neighbours present in one tick: the heads of the response channels, whether the
response port is full, which channels take a request, and a new request. -/
structure Tick where
  rspIn : ℕ → Option MemRsp
  rspFull : Bool
  accept : ℕ → Bool
  input : Option LsuReq

def laneMask (t : Tick) (o tag j : ℕ) : Bool :=
  decide (j < outputSize) && decide (o ≤ j) && (t.rspIn j).any fun r => decide (r.tag = tag)

def rspMask (t : Tick) (o tag : ℕ) (entry : PendingReq) (i : ℕ) : Bool :=
  laneMask t o tag (i / outputRatio) && entry.mask i

def mergeRsp (t : Tick) (o : ℕ) (rsp0 : MemRsp) (entry : PendingReq) : LsuRsp :=
  ⟨rspMask t o rsp0.tag entry, entry.tag, rsp0.hartId, rsp0.uuid,
    fun i => if rspMask t o rsp0.tag entry i then (t.rspIn (i / outputRatio)).bind MemRsp.data
      else none⟩

def clearLanes (entry : PendingReq) (mask : ℕ → Bool) : Option PendingReq :=
  if (range inputSize).any (fun i => entry.mask i && !mask i) then
    some { entry with mask := fun i => entry.mask i && !mask i }
  else none

def answerAfter (w : World) (t : Tick) (o tag n : ℕ) : Option MemRsp :=
  match (range outputSize).find? fun j => laneMask t o tag j && decide (w.owed j tag = some n) with
  | some j => t.rspIn j
  | none => w.answer n

def answered (w : World) (t : Tick) (o : ℕ) (rsp0 : MemRsp) (entry : PendingReq) : World :=
  { w with
    coalescer := { w.coalescer with
      pendingRdReqs := update w.coalescer.pendingRdReqs rsp0.tag
        (clearLanes entry (rspMask t o rsp0.tag entry)) }
    owed := fun j tag => if laneMask t o rsp0.tag j && decide (tag = rsp0.tag) then none
      else w.owed j tag
    answer := answerAfter w t o rsp0.tag
    delivered := w.delivered ++ [(w.holder rsp0.tag, mergeRsp t o rsp0 entry)] }

/-- The responses of one tick; `none` for a tag that is not pending and for the failed assertion. -/
def responseStep (w : World) (t : Tick) : Option World :=
  match (range outputSize).find? fun o => (t.rspIn o).isSome with
  | none => some w
  | some o =>
    if t.rspFull then some w
    else
      (t.rspIn o).bind fun rsp0 =>
        (w.coalescer.pendingRdReqs rsp0.tag).bind fun entry =>
          if (range inputSize).any entry.mask then some (answered w t o rsp0 entry) else none

def issueCover (round : OutRound) (o i : ℕ) : Bool :=
  decide (i / outputRatio = o) && round.curMask i

def issue (w : World) (round : OutRound) (o : ℕ) : World :=
  { w with
    coalescer :=
      { w.coalescer with outRound := some { round with lanes := update round.lanes o false } }
    emitted := w.emitted ++ [⟨w.popped, o, issueCover round o, round.reqs o⟩]
    owed := if needsRsp (round.reqs o).op then
        update w.owed o (update (w.owed o) (round.reqs o).tag (some w.emitted.length))
      else w.owed }

def trySend (t : Tick) (w : World) (o : ℕ) : World :=
  match w.coalescer.outRound with
  | some round => if round.lanes o && t.accept o then issue w round o else w
  | none => w

def commitRound (w : World) : World :=
  match w.coalescer.outRound, w.arrived[w.popped]? with
  | some round, some req =>
    if (range outputSize).any round.lanes then w
    else
      let sent := fun i => w.coalescer.sentMask i || round.curMask i
      if (range inputSize).all fun i => decide (sent i = req.mask i) then
        { w with
          coalescer := { w.coalescer with outRound := none, sentMask := fun _ => false }
          popped := w.popped + 1 }
      else { w with coalescer := { w.coalescer with outRound := none, sentMask := sent } }
  | _, _ => w

def flushOutRound (t : Tick) (w : World) : World :=
  commitRound ((range outputSize).foldl (trySend t) w)

/-- A new round; `none` if no lane is left, where the assertion fails. -/
def buildRound (w : World) (req : LsuReq) : Option World :=
  let s := w.coalescer
  let round := newRound req s.sentMask
  if (range outputSize).any (round 0).lanes then
    if needsRsp req.op then
      (TagTable.free queueSize s.pendingRdReqs).map fun tag =>
        { w with
          coalescer := { s with
            pendingRdReqs := update s.pendingRdReqs tag (some ⟨req.tag, (round tag).curMask⟩)
            outRound := some (round tag) }
          holder := update w.holder tag w.popped }
    else some { w with coalescer := { s with outRound := some (round 0) } }
  else none

/-- The requests of one tick; `none` for a request without lanes. -/
def requestStep (w : World) (t : Tick) : Option World :=
  match w.coalescer.outRound with
  | some _ => some (flushOutRound t w)
  | none =>
    match w.arrived[w.popped]? with
    | none => some w
    | some req =>
      if (range inputSize).any req.mask then
        if TagTable.full queueSize w.coalescer.pendingRdReqs then some w else buildRound w req
      else none

def onTick (w : World) (t : Tick) : Option (World × Unit) :=
  (responseStep w t).bind fun w =>
    (requestStep w t).map fun w => ({ w with arrived := w.arrived ++ t.input.toList }, ())

end VortexGpu.Coalescer

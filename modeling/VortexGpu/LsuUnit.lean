import Mathlib.Data.List.DropRight
import VortexGpu.AmoUnit
import VortexGpu.Runs
import VortexGpu.TagTable

/-!
# The load/store unit

One block of `LsuUnit`. An instruction is issued in beats, as wide as the unit has lanes; each beat
of a load or an atomic has an entry that counts the lanes still to be answered. The instruction is
sent on when the entry marked as the end of the packet has been answered.
-/

namespace VortexGpu.Lsu
open List Function

open Cache (MemOp MemBlock)

class Config where
  numThreads : ℕ
  numLanes : ℕ
  pendingSize : ℕ
  queueSize : ℕ
  xlen : ℕ
  lanes_pos : 0 < numLanes

open Config
variable [Config]

inductive Op
  | load | store | fence
  | amo (op : MemOp)
deriving DecidableEq, Repr

structure Trace where
  op : Op
  tmask : ℕ → Bool
  rs1 : ℕ → ℕ
  rs2 : ℕ → ℕ
  width : ℕ
  stride : ℕ
  offset : ℕ
  dstFloat : Bool
  dstBytesel : ℕ

namespace Trace

def isAmo (tr : Trace) : Bool :=
  match tr.op with
  | .amo _ => true
  | _ => false

def isWrite (tr : Trace) : Bool := decide (tr.op = .store)

def isFence (tr : Trace) : Bool := decide (tr.op = .fence)

/-- The width in `lsu_args` of an entry. -/
def entryWidth (tr : Trace) : ℕ := if tr.isAmo then tr.width % 4 else tr.width

def dataBytes (tr : Trace) : ℕ := 2 ^ (tr.width % 4)

end Trace

structure AddrEntry where
  addr : ℕ
  size : ℕ
  data : ℕ
  tid : ℕ
deriving DecidableEq, Repr

def addrEntry (tr : Trace) (t : ℕ) : AddrEntry :=
  if tr.tmask t then
    ⟨(if tr.isAmo then tr.rs1 t else tr.rs1 t + tr.stride * tr.rs2 t + tr.offset) % 2 ^ xlen,
      tr.dataBytes, if tr.isWrite || tr.isAmo then tr.rs2 t else 0, t⟩
  else ⟨0, 0, 0, t⟩

/-- `none` for the abort on a store that is too wide. -/
def computeAddrs (tr : Trace) : Option (List AddrEntry) :=
  if tr.isWrite && decide (3 < tr.width) then none
  else some (((range numThreads).map (addrEntry tr)).rdropWhile fun e => decide (e.size = 0))

/-- Who gets the answers of an entry: an instruction, or the metadata client under its own tag. -/
inductive Owner
  | trace (k : ℕ)
  | tcu (clientTag : ℕ)
deriving DecidableEq, Repr

structure PendingReq where
  owner : Owner
  count : ℕ
  eop : Bool
  lanes : ℕ → AddrEntry
  width : ℕ

/-- `lsu_state_t`. Instructions are named by their number in the order of arrival. -/
structure State where
  reqQueue : List ℕ
  pendingReqs : ℕ → Option PendingReq
  fence : Option ℕ
  addrList : List AddrEntry
  remainAddrs : ℕ

namespace State

def pendingFull (s : State) : Bool := TagTable.full pendingSize s.pendingReqs

def pendingEmpty (s : State) : Bool := (range pendingSize).all fun i => (s.pendingReqs i).isNone

/-- The first free index; `none` if the assertion fails. -/
def freeTag (s : State) : Option ℕ := TagTable.free pendingSize s.pendingReqs

end State

structure LsuRsp where
  tag : ℕ
  mask : ℕ → Bool
  data : ℕ → MemBlock

structure TcuReq where
  clientTag : ℕ
  mask : ℕ → Bool
  addrs : ℕ → ℕ
  tids : ℕ → ℕ

inductive Access
  | waiting
  | requested (tag lane : ℕ)
  | answered (value : ℕ)
deriving DecidableEq, Repr

/-- The unit, the instructions that have arrived with their `dst_data`, what was sent to `Outputs`
with the `dst_data` of that moment, the lanes that the memory has to answer, and the accesses that
were sent to it, each with its instruction and thread. -/
structure World where
  lsu : State
  traces : List Trace
  dstData : ℕ → ℕ → ℕ
  outputs : List (ℕ × (ℕ → ℕ))
  owed : ℕ → ℕ → Bool
  access : ℕ → ℕ → Access
  beats : List (ℕ × ℕ)

def World.reset : World :=
  ⟨⟨[], fun _ => none, none, [], 0⟩, [], fun _ _ => 0, [], fun _ _ => false,
    fun _ _ => .waiting, []⟩

def sext (w width word : ℕ) : ℕ :=
  if word.testBit (width - 1) then word % 2 ^ width + (2 ^ w - 2 ^ width) else word % 2 ^ width

/-- The value for `dst_data`; `none` for the abort on the width and for a copy past the block. -/
def formatLoad (tr : Trace) (width addr : ℕ) (block : MemBlock) : Option ℕ :=
  let dataBytes := 2 ^ (width % 4)
  let dataBs := tr.dstBytesel % 16
  let byteOff := if dataBs = 0 ∨ dataBs = 15 then 0
    else if dataBs.testBit 0 then 0 else if dataBs.testBit 1 then 1
    else if dataBs.testBit 2 then 2 else 3
  let nanBox := tr.dstFloat && decide (dataBytes < 8)
  let off := addr % 64
  if 64 < off + dataBytes then none
  else
    let readData := ByteMem.readLE block off dataBytes
    let signed := sext xlen (8 * dataBytes) (readData % 2 ^ xlen)
    let formatted : Option ℕ :=
      if width = 0 ∨ width = 1 then some signed
      else if width = 2 then some (if tr.dstFloat then readData else signed)
      else if width ≤ 6 then some readData
      else none
    formatted.map fun v =>
      (v <<< (8 * byteOff)) % 2 ^ 64 ||| if nanBox then 0xFFFFFFFF00000000 else 0

def popcount (mask : ℕ → Bool) : ℕ := (range numLanes).countP mask

def writeLane (tr : Trace) (k : ℕ) (entry : PendingReq) (rsp : LsuRsp) (dst : ℕ → ℕ → ℕ)
    (lane : ℕ) : Option (ℕ → ℕ → ℕ) :=
  if rsp.mask lane then
    (formatLoad tr entry.width (entry.lanes lane).addr (rsp.data lane)).map fun v =>
      update dst k (update (dst k) (entry.lanes lane).tid v)
  else some dst

def writeBack (tr : Trace) (k : ℕ) (entry : PendingReq) (rsp : LsuRsp)
    (dst : ℕ → ℕ → ℕ) :
    Option (ℕ → ℕ → ℕ) := (range numLanes).foldlM (writeLane tr k entry rsp) dst

def answerOwed (rsp : LsuRsp) (owed : ℕ → ℕ → Bool) : ℕ → ℕ → Bool :=
  fun tag lane =>
  owed tag lane && !(decide (tag = rsp.tag) && rsp.mask lane)

def answerAccess (traces : List Trace) (rsp : LsuRsp) (access : ℕ → ℕ → Access) :
    ℕ → ℕ → Access :=
  fun k t =>
  match access k t with
  | .requested tag lane =>
    if tag = rsp.tag ∧ rsp.mask lane = true then
      match traces[k]? with
      | some tr =>
        .answered ((formatLoad tr tr.entryWidth (addrEntry tr t).addr (rsp.data lane)).getD 0)
      | none => .requested tag lane
    else .requested tag lane
  | a => a

def countDown (entry : PendingReq) (rsp : LsuRsp) : Option PendingReq :=
  if entry.count - popcount rsp.mask = 0 then none
  else some { entry with count := entry.count - popcount rsp.mask }

abbrev answered (w : World) (rsp : LsuRsp) (entry : PendingReq) : World :=
  { w with
    lsu := { w.lsu with pendingReqs := update w.lsu.pendingReqs rsp.tag (countDown entry rsp) }
    owed := answerOwed rsp w.owed
    access := answerAccess w.traces rsp w.access }

def responseStep (w : World) (rsp : LsuRsp) (outFull tcuFull : Bool) : Option World :=
  (w.lsu.pendingReqs rsp.tag).bind fun entry =>
    match entry.owner with
    | .tcu _ => some (if tcuFull then w else answered w rsp entry)
    | .trace k =>
      if (decide (entry.count = popcount rsp.mask) && entry.eop) && outFull then some w
      else if entry.count = 0 then none
      else
        w.traces[k]?.bind fun tr =>
          (writeBack tr k entry rsp w.dstData).map fun dst =>
            { answered w rsp entry with
              dstData := dst
              outputs :=
                if decide (entry.count - popcount rsp.mask = 0) && entry.eop then
                  w.outputs ++ [(k, dst k)]
                else w.outputs }

def releaseFence (w : World) (outFull : Bool) : World :=
  match w.lsu.fence with
  | some k =>
    if w.lsu.pendingEmpty && !outFull then
      { w with lsu := { w.lsu with fence := none }, outputs := w.outputs ++ [(k, w.dstData k)] }
    else w
  | none => w

/-- The lanes of a request stand for the accesses of their threads. -/
def allocated (entry : PendingReq) (mask : ℕ → Bool) (tag : ℕ)
    (access : ℕ → ℕ → Access) : ℕ → ℕ → Access := fun k t =>
  if entry.owner = .trace k then
    match (range numLanes).find? fun lane =>
      mask lane && decide ((entry.lanes lane).tid = t) with
    | some lane => .requested tag lane
    | none => access k t
  else access k t

def allocate (w : World) (entry : PendingReq) (mask : ℕ → Bool) : Option World :=
  w.lsu.freeTag.map fun tag =>
    { w with
      lsu := { w.lsu with pendingReqs := update w.lsu.pendingReqs tag (some entry) }
      owed := update w.owed tag fun lane => decide (lane < numLanes) && mask lane
      access := allocated entry mask tag w.access }

def forwardTcu (w : World) (q : TcuReq) : Option World :=
  allocate w ⟨.tcu q.clientTag, popcount q.mask, true,
    fun i => if q.mask i then ⟨q.addrs i, 4, 0, q.tids i⟩ else ⟨0, 0, 0, 0⟩, 2⟩ q.mask

def skipInactive (lanes : ℕ) (l : List AddrEntry) : ℕ → ℕ → ℕ
  | 0, remain => remain
  | fuel + 1, remain =>
    let n := min lanes remain
    if remain ≠ 0 ∧
        ((l.drop (l.length - remain)).take n).all (fun e => decide (e.size = 0)) = true then
      skipInactive lanes l fuel (remain - n)
    else remain

def beatEntry (s : State) (i : ℕ) : AddrEntry :=
  s.addrList.getD (s.addrList.length - s.remainAddrs + i) ⟨0, 0, 0, 0⟩

def beatMask (s : State) (i : ℕ) : Bool :=
  decide (i < min numLanes s.remainAddrs) && decide ((beatEntry s i).size ≠ 0)

def beatPending (s : State) (k : ℕ) (tr : Trace) : PendingReq :=
  ⟨.trace k, popcount (beatMask s), decide (s.remainAddrs - min numLanes s.remainAddrs = 0),
    fun i => if beatMask s i then beatEntry s i else ⟨0, 0, 0, 0⟩, tr.entryWidth⟩

def sentThreads (s : State) (k : ℕ) : List (ℕ × ℕ) :=
  ((range numLanes).filter (beatMask s)).map fun i => (k, (beatEntry s i).tid)

def sendBeat (w : World) (k : ℕ) (tr : Trace) : Option World :=
  let s := w.lsu
  let w' := { w with
    lsu := { s with remainAddrs := s.remainAddrs - min numLanes s.remainAddrs }
    beats := w.beats ++ sentThreads s k }
  if tr.isWrite then some w'
  else allocate w' (beatPending s k tr) (beatMask s)

def dispatch (w : World) (outFull reqFull : Bool) : Option World :=
  match w.lsu.reqQueue with
  | [] => some w
  | k :: rest =>
    w.traces[k]?.bind fun tr =>
      if tr.isFence then some { w with lsu := { w.lsu with fence := some k, reqQueue := rest } }
      else if !tr.isWrite && w.lsu.pendingFull then some w
      else
        let loaded : Option State :=
          if w.lsu.remainAddrs = 0 then
            (computeAddrs tr).map fun l => { w.lsu with addrList := l, remainAddrs := l.length }
          else some w.lsu
        loaded.bind fun s =>
          let directCommit := (tr.isWrite || s.addrList.isEmpty) && !tr.isAmo
          let s :=
            { s with remainAddrs := skipInactive numLanes s.addrList s.remainAddrs s.remainAddrs }
          if directCommit && decide (s.remainAddrs ≤ numLanes) && outFull then
            some { w with lsu := s }
          else if decide (s.remainAddrs ≠ 0) && reqFull then some { w with lsu := s }
          else
            let sent : Option World :=
              if s.remainAddrs ≠ 0 then sendBeat { w with lsu := s } k tr
              else some { w with lsu := s }
            sent.map fun w' =>
              if w'.lsu.remainAddrs = 0 then
                { w' with
                  lsu := { w'.lsu with reqQueue := rest }
                  outputs :=
                    if directCommit then w'.outputs ++ [(k, w'.dstData k)] else w'.outputs }
              else w'

def requestStep (w : World) (tcuReq : Option TcuReq) (outFull reqFull : Bool) : Option World :=
  let fenceLocked := w.lsu.fence.isSome
  let w := releaseFence w outFull
  match tcuReq.filter fun _ => !w.lsu.pendingFull && !reqFull with
  | some q => forwardTcu w q
  | none => if fenceLocked then some w else dispatch w outFull reqFull

def ingestInputs (w : World) (tr : Trace) : World :=
  if decide (queueSize ≤ w.lsu.reqQueue.length) || (tr.isFence && !w.lsu.reqQueue.isEmpty) then w
  else { w with
    traces := w.traces ++ [tr]
    lsu := { w.lsu with reqQueue := w.lsu.reqQueue ++ [w.traces.length] } }

structure Tick where
  rsp : Option LsuRsp
  tcuRspFull : Bool
  outFull : Bool
  outFullLater : Bool
  tcuReq : Option TcuReq
  reqFull : Bool
  input : Option Trace

def respond (w : World) (t : Tick) : Option World :=
  match t.rsp with
  | some rsp => responseStep w rsp t.outFull t.tcuRspFull
  | none => some w

def ingest (w : World) (t : Tick) : World :=
  match t.input with
  | some tr => ingestInputs w tr
  | none => w

def onTick (w : World) (t : Tick) : Option (World × Unit) :=
  (respond w t).bind fun w =>
    (requestStep w t.tcuReq t.outFullLater t.reqFull).map fun w => (ingest w t, ())

end VortexGpu.Lsu

import VortexGpu.Mshr

/-!
# One bank of a SimX cache

A bank takes requests from `core_req_in` and answers on `core_rsp_out`; it sends fills, write-backs
and write-throughs on `mem_req_out`. Requests, fills and replays pass a pipe of at most two entries.
`none` is a failed assertion or an abort. A request that stalls stays where it is.
-/

namespace VortexGpu.Cache
open Function

structure MemReq where
  op : MemOp
  addr : ℕ
  data : Option MemBlock
  byteen : ℕ
  tag : ℕ
  hartId : ℕ
  uuid : ℕ
  flags : MemFlags

structure MemRsp where
  tag : ℕ
  hartId : ℕ
  uuid : ℕ
  data : Option MemBlock

structure AmoPassthruEntry where
  valid : Bool
  reqTag : ℕ
  cid : ℕ
  uuid : ℕ

def amoPassthruCap : ℕ := 8

def pipeCapacity : ℕ := 2

/-- Each entry of the pipe has the number of ticks that it still travels. -/
structure CacheBank where
  sets : ℕ → CacheSet
  mshr : Mshr
  pendingMshrSize : ℕ
  pendingAmoProbes : ℕ
  pipeCoreLines : List (ℕ × ℕ)
  pipeReq : List (BankReq × ℕ)
  randCtr : ℕ
  admSeqCtr : ℕ
  fwdActive : Bool
  fwdKey : SectorKey
  crspSent : Bool
  amoUnit : AmoUnit
  amoPassthru : ℕ → AmoPassthruEntry

/-- What a bank sends in a tick. `served` has the requests that take effect, each with the
response that goes to the core at that point; `passed` are answers of forwarded atomics. -/
structure Sent where
  memReqs : List MemReq
  served : List (BankReq × Option MemRsp)
  passed : List MemRsp

namespace Sent

def nothing : Sent := ⟨[], [], []⟩

def mem (reqs : List MemReq) : Sent := ⟨reqs, [], []⟩

def rsps (s : Sent) : List MemRsp := s.served.filterMap Prod.snd ++ s.passed

def append (s t : Sent) : Sent :=
  ⟨s.memReqs ++ t.memReqs, s.served ++ t.served, s.passed ++ t.passed⟩

end Sent

open Sent CacheConfig

namespace CacheBank

variable [CacheConfig]

def reset : CacheBank where
  sets := fun _ => CacheSet.reset
  mshr := Mshr.reset
  pendingMshrSize := 0
  pendingAmoProbes := 0
  pipeCoreLines := []
  pipeReq := []
  randCtr := 0
  admSeqCtr := 0
  fwdActive := false
  fwdKey := ⟨0, 0, 0⟩
  crspSent := false
  amoUnit := []
  amoPassthru := fun _ => ⟨false, 0, 0, 0⟩

section
variable (b : CacheBank)

def pipeFull : Bool := decide (pipeCapacity ≤ b.pipeReq.length)

def pushPipe (req : BankReq) : CacheBank :=
  { b with pipeReq := b.pipeReq ++ [(req, latency)] }

def popPipe : CacheBank := { b with pipeReq := b.pipeReq.tail }

def setOf (k : SectorKey) : CacheSet := b.sets k.setId

def putSet (k : SectorKey) (set : CacheSet) : CacheBank :=
  { b with sets := update b.sets k.setId set }

end

def needCoreRsp (req : BankReq) : Bool := !req.write || writeReponse || req.flags.strsp

def touch (set : CacheSet) (hit : Option ℕ) : CacheSet :=
  if replPolicy = .plru then set.updateLru hit else set

def leavePipe (b : CacheBank) (k : SectorKey) : Option CacheBank :=
  if (k.setId, k.addrTag) ∈ b.pipeCoreLines then
    some { b.popPipe with
      pendingMshrSize := b.pendingMshrSize - 1
      pipeCoreLines := b.pipeCoreLines.erase (k.setId, k.addrTag) }
  else none

def storeReq (bankId : ℕ) (k : SectorKey) (hartId uuid : ℕ) (data : Option MemBlock)
    (byteen : ℕ) : MemReq :=
  ⟨.st, memAddrSector bankId k, data, byteen, 0, hartId, uuid, ⟨false, false⟩⟩

def fillReq (bankId : ℕ) (k : SectorKey) (req : BankReq) (mshrId : ℕ) : MemReq :=
  ⟨.ld, memAddrSector bankId k, none, 0, mshrId, req.hartId, req.uuid, ⟨false, false⟩⟩

def rspTo (req : BankReq) (data : Option MemBlock) : MemRsp :=
  ⟨req.reqTag, req.hartId, req.uuid, data⟩

def breakReservations (b : CacheBank) (req : BankReq) : CacheBank :=
  if isLlc then { b with amoUnit := b.amoUnit.invalidate (lineAddr req.addr) req.hartId } else b

def popcount (byteen : ℕ) : ℕ := (List.range 64).countP fun i => byteen.testBit i

def amoWidth (req : BankReq) : ℕ := if 8 ≤ popcount req.byteen then 3 else 2

/-- LR and SC at the last level, on the sector in way `hit`. The outer `none` is an abort, the
inner one a stall. -/
def commitAmo (b : CacheBank) (bankId : ℕ) (req : BankReq) (hit memSlots rspSlots : ℕ) :
    Option (Option (CacheBank × Sent)) :=
  let k := key req.addr
  let set := b.setOf k
  let sec := set.sector hit k.sectorId
  let line := lineAddr req.addr
  let byteOff := req.addr % blockSize
  let width := amoWidth req
  let rhs := req.data.elim 0 (amoLoadWord · byteOff width)
  let scFail := decide (req.op = .amoSc) && !b.amoUnit.check req.hartId line
  let doStore := decide (req.op ≠ .amoLr) && !scFail
  if rspSlots = 0 then some none
  else if doStore && !writeBack && decide (memSlots = 0) then some none
  else do
    let oldWord := sec.data.elim 0 (amoLoadWord · byteOff width)
    let rmw ← amoCompute req.op width oldWord rhs req.flags.amoUnsigned
    let rspWord := if req.op = .amoSc then (if scFail then 1 else 0) else rmw.retWord
    let rsp := rspTo req (some (amoStoreWord zeroBlock byteOff width rspWord))
    let reserved :=
      if req.op = .amoLr then b.amoUnit.reserve req.hartId line
      else if req.op = .amoSc then b.amoUnit.clear req.hartId line
      else b.amoUnit
    if doStore then
      let block := amoStoreWord zeroBlock byteOff width rmw.newWord
      let byteen := amoByteen byteOff width
      let merged := sec.merge (some block) byteen
      let sec' := if writeBack then merged.markDirty byteen else merged
      let reqs := if writeBack then []
        else [storeReq bankId k req.hartId req.uuid (some block) byteen]
      some (some ({ b.putSet k (set.setSector hit k.sectorId sec') with
          amoUnit := reserved.invalidate line req.hartId, crspSent := true },
        ⟨reqs, [(req, some rsp)], []⟩))
    else
      some (some ({ b with amoUnit := reserved, crspSent := true },
        ⟨[], [(req, some rsp)], []⟩))

def processAmoProbe (b : CacheBank) (bankId : ℕ) (req : BankReq) (memSlots : ℕ) :
    Option (CacheBank × Sent) :=
  let k := key req.addr
  let set := b.setOf k
  if ¬ (req.op.isAmoRmw || !isLlc) then none
  else
    let hit := set.hitWay k
    let dirty := hit.filter fun way => (set.sector way k.sectorId).dirty
    if memSlots < dirty.toList.length + 1 then some (b, nothing)
    else match (List.range amoPassthruCap).find? (fun i => !(b.amoPassthru i).valid) with
      | none => some (b, nothing)
      | some pid =>
        let wbs := dirty.toList.map fun way =>
          storeReq bankId { k with addrTag := (set.lines way).tag } req.hartId req.uuid
            (set.sector way k.sectorId).data (set.sector way k.sectorId).dirtyMask
        let set' := hit.elim set fun way => set.setSector way k.sectorId Sector.reset
        let fwd : MemReq :=
          ⟨req.op, req.addr, req.data, req.byteen, mshrSize + pid, req.hartId, req.uuid,
            req.flags⟩
        some ({ (b.putSet k set').popPipe with
            amoPassthru := update b.amoPassthru pid ⟨true, req.reqTag, req.hartId, req.uuid⟩
            pendingAmoProbes := b.pendingAmoProbes - 1 },
          ⟨wbs ++ [fwd], [(req, none)], []⟩)

def installFill (b : CacheBank) (req : BankReq) (k : SectorKey) (set : CacheSet) (way : ℕ) :
    Option CacheBank := do
  let mshr ← b.mshr.replay mshrSize req.mshrId
  let sectors := update (set.lines way).sectors k.sectorId ⟨true, false, 0, req.data⟩
  some { (b.putSet k (set.setLine way ⟨k.addrTag, 0, sectors⟩)).popPipe with
    mshr, fwdActive := true, fwdKey := k }

def writebacks (bankId setId : ℕ) (req : BankReq) (victim : Line) : List MemReq :=
  (if writeBack then victim.dirtySectors else []).map fun s =>
    storeReq bankId ⟨setId, victim.tag, s⟩ req.hartId req.uuid
      (victim.sectors s).data (victim.sectors s).dirtyMask

def evict (b : CacheBank) (k : SectorKey) (way : ℕ) : CacheBank × CacheSet :=
  let set := b.setOf k
  ({ b with randCtr := if replPolicy = .random then Word.add32 b.randCtr 1 else b.randCtr },
    { set.setLine way { (set.lines way).reset with tag := k.addrTag } with
      fifoPtr := if replPolicy = .fifo then (set.fifoPtr + 1) % linesPerSet else set.fifoPtr })

def processFill (b : CacheBank) (bankId : ℕ) (req : BankReq) (memSlots : ℕ) :
    Option (CacheBank × Sent) :=
  let k := key req.addr
  let set := b.setOf k
  match set.findResident k.addrTag with
  | some way => do
    let b' ← b.installFill req k set way
    some (b', nothing)
  | none =>
    let way := set.selectVictim b.randCtr
    let wbs := writebacks bankId k.setId req (set.lines way)
    if memSlots < wbs.length then some (b, nothing)
    else do
      let (b', set') := b.evict k way
      let b' ← b'.installFill req k set' way
      some (b', mem wbs)

def storeSector (sec : Sector) (req : BankReq) : Sector :=
  let merged := sec.merge req.data req.byteen
  if writeBack then merged.markDirty req.byteen else merged

section
variable (b : CacheBank)

/-- A load or store takes effect on the sector in way `hit`. -/
def access (req : BankReq) (k : SectorKey) (hit : ℕ) : CacheBank :=
  let set := b.setOf k
  let set' := if req.write then
    set.setSector hit k.sectorId (storeSector (set.sector hit k.sectorId) req) else set
  b.putSet k (touch set' (some hit))

/-- The response to a load or store that finds its sector in way `hit`. -/
def accessRsp (req : BankReq) (k : SectorKey) (hit : ℕ) : MemRsp :=
  rspTo req (if req.write then none else ((b.setOf k).sector hit k.sectorId).data)

section
variable (bankId : ℕ)

def processReplay (req : BankReq) (memSlots rspSlots : ℕ) : Option (CacheBank × Sent) :=
  let k := key req.addr
  match (b.setOf k).hitWay k with
  | none =>
    -- a write-through merge whose sector is gone is dropped, anything else misses again
    if req.write && req.skipCoreRsp then some (b.popPipe, nothing)
    else
      let fillPending := b.mshr.hasPendingFill mshrSize k none
      if !fillPending && decide (memSlots = 0) then some (b, nothing)
      else if b.mshr.full mshrSize then some (b, nothing)
      else do
        let (mshr, id) ← b.mshr.enqueue mshrSize { req with type := .core } k
        some ({ b.popPipe with mshr },
          mem (if fillPending then [] else [fillReq bankId k req id]))
  | some hit =>
    if req.op.isAtomic then
      if req.op.isAmoRmw then none
      else match b.commitAmo bankId req hit memSlots rspSlots with
        | none => none
        | some none => some (b, nothing)
        | some (some (b', sent)) =>
          some ((b'.putSet k (touch (b'.setOf k) (some hit))).popPipe, sent)
    else if needCoreRsp req && decide (rspSlots = 0) then some (b, nothing)
    else if req.write && !writeBack && !req.skipCoreRsp then none
    else
      let answers := needCoreRsp req && !req.skipCoreRsp
      let b' := b.access req k hit
      let b' := if req.write && writeBack then b'.breakReservations req else b'
      some ({ b'.popPipe with crspSent := b.crspSent || answers },
        ⟨[], if req.skipCoreRsp then []
          else [(req, if answers then some (b.accessRsp req k hit) else none)], []⟩)

/-- A write-through store goes to memory, with the response if one is due; `none` is a stall. -/
def emitWritethrough (req : BankReq) (k : SectorKey)
    (memSlots rspSlots : ℕ) : Option (CacheBank × Sent) :=
  let needRsp := needCoreRsp req
  if memSlots = 0 then none
  else if needRsp && decide (rspSlots = 0) then none
  else some ({ b.breakReservations req with crspSent := b.crspSent || needRsp },
    ⟨[storeReq bankId k req.hartId req.uuid req.data req.byteen],
      [(req, if needRsp then some (rspTo req none) else none)], []⟩)

def coreDefer (req : BankReq) (k : SectorKey) (memSlots rspSlots : ℕ) :
    Option (CacheBank × Sent) :=
  let defer (b : CacheBank) (req : BankReq) (sent : Sent) : Option (CacheBank × Sent) := do
    if b.mshr.full mshrSize then none
    else
      let (mshr, id) ← b.mshr.enqueue mshrSize req k
      let mshr ← mshr.deferToReplay id
      let b' ← { b with mshr }.leavePipe k
      some (b', sent)
  if req.write && !writeBack then
    match b.emitWritethrough bankId req k memSlots rspSlots with
    | none => some (b, nothing)
    | some (b', sent) => defer b' { req with skipCoreRsp := true } sent
  else defer b req nothing

def coreHit (req : BankReq) (k : SectorKey) (hit memSlots rspSlots : ℕ) :
    Option (CacheBank × Sent) :=
  let needRsp := needCoreRsp req
  let needMem := req.write && !writeBack
  if needMem && decide (memSlots = 0) then some (b, nothing)
  else if needRsp && decide (rspSlots = 0) then some (b, nothing)
  else do
    let b' := b.access req k hit
    let b' := if req.write then b'.breakReservations req else b'
    let b' ← { b' with crspSent := b.crspSent || needRsp }.leavePipe k
    some (b', ⟨if needMem then [storeReq bankId k req.hartId req.uuid req.data req.byteen]
      else [], [(req, if needRsp then some (b.accessRsp req k hit) else none)], []⟩)

/-- A miss: a write-through store goes to memory, and is merged later if a fill is on its way;
any other request waits for the fill, which the first one asks for. -/
def coreMiss (req : BankReq) (k : SectorKey) (memSlots rspSlots : ℕ) :
    Option (CacheBank × Sent) :=
  let fillPending := b.mshr.hasPendingFill mshrSize k none
  let aged (b : CacheBank) : CacheBank := b.putSet k (touch (b.setOf k) none)
  if req.write && !writeBack then
    if fillPending && b.mshr.full mshrSize then some (b, nothing)
    else match b.emitWritethrough bankId req k memSlots rspSlots with
      | none => some (b, nothing)
      | some (b', sent) => do
        let mshr ← (if fillPending then
          (b'.mshr.enqueue mshrSize { req with skipCoreRsp := true } k).map Prod.fst
          else some b'.mshr : Option Mshr)
        let b' ← { aged b' with mshr }.leavePipe k
        some (b', sent)
  else if !fillPending && decide (memSlots = 0) then some (b, nothing)
  else if b.mshr.full mshrSize then none
  else do
    let (mshr, id) ← b.mshr.enqueue mshrSize req k
    let b' ← { aged b with mshr }.leavePipe k
    some (b', mem (if fillPending then [] else [fillReq bankId k req id]))

def processCore (req : BankReq) (memSlots rspSlots : ℕ) : Option (CacheBank × Sent) :=
  let k := key req.addr
  match (b.setOf k).hitWay k with
  | none => b.coreMiss bankId req k memSlots rspSlots
  | some hit =>
    if b.mshr.lookup mshrSize k then b.coreDefer bankId req k memSlots rspSlots
    else if req.op.isAtomic then
      if !isLlc then none
      else match b.commitAmo bankId req hit memSlots rspSlots with
        | none => none
        | some none => some (b, nothing)
        | some (some (b', sent)) => do
          let b' ← (b'.putSet k (touch (b'.setOf k) (some hit))).leavePipe k
          some (b', sent)
    else b.coreHit bankId req k hit memSlots rspSlots

end

def processRequests (bankId memSlots rspSlots : ℕ) : Option (CacheBank × Sent) :=
  match b.pipeReq with
  | (req, 0) :: _ =>
    match req.type with
    | .none => some (b.popPipe, nothing)
    | .amoProbe => b.processAmoProbe bankId req memSlots
    | .fill => b.processFill bankId req memSlots
    | .replay => b.processReplay bankId req memSlots rspSlots
    | .core => b.processCore bankId req memSlots rspSlots
  | _ => some (b, nothing)

/-- Complete the oldest marked request, if it is a read of the armed sector. The result says
whether one was completed. -/
def processForward (rspSlots : ℕ) : Option (CacheBank × Sent × Bool) :=
  let close : Option (CacheBank × Sent × Bool) :=
    some ({ b with fwdActive := false }, nothing, false)
  if !b.fwdActive then some (b, nothing, false)
  else if !b.mshr.hasReadyReqs then close
  else match b.mshr.nextReplay mshrSize with
    | none => some (b, nothing, false)
    | some i =>
      let head := b.mshr.entries i
      if head.key ≠ b.fwdKey ∨ head.bankReq.write ∨ head.bankReq.op.isAtomic then close
      else match (b.setOf head.key).findResident head.key.addrTag with
        | none => close
        | some way =>
          let sec := (b.setOf head.key).sector way head.key.sectorId
          if !sec.valid then close
          else if b.crspSent || decide (rspSlots = 0) then some (b, nothing, false)
          else do
            let (mshr, req) ← b.mshr.dequeue mshrSize
            some ({ b with mshr }, ⟨[], [(req, some (rspTo req sec.data))], []⟩, true)

end

inductive Taken where
  | nothing | core | mem
  deriving DecidableEq, Repr

section
variable (b : CacheBank)

def stamped (req : MemReq) (type : ReqType) : BankReq :=
  { BankReq.reset with
    admSeq := b.admSeqCtr
    type
    addr := req.addr
    hartId := req.hartId
    uuid := req.uuid
    reqTag := req.tag
    write := decide (req.op = .st)
    op := req.op
    data := req.data
    byteen := req.byteen
    flags := req.flags }

def takeMemRsp (bankId : ℕ) (rsp : MemRsp) (rspSlots : ℕ) :
    Option (CacheBank × Sent × Taken) :=
  if mshrSize ≤ rsp.tag ∧ rsp.tag < mshrSize + amoPassthruCap then
    let pid := rsp.tag - mshrSize
    let e := b.amoPassthru pid
    if !e.valid then none
    else if rspSlots = 0 then some (b, nothing, .nothing)
    else some ({ b with amoPassthru := update b.amoPassthru pid { e with valid := false } },
      ⟨[], [], [⟨e.reqTag, e.cid, e.uuid, rsp.data⟩]⟩, .mem)
  else if mshrSize ≤ rsp.tag then none
  else
    let root := b.mshr.entries rsp.tag
    some (b.pushPipe { BankReq.reset with
        type := .fill
        addr := memAddrSector bankId root.key
        hartId := root.bankReq.hartId
        uuid := root.bankReq.uuid
        mshrId := rsp.tag
        data := rsp.data },
      nothing, .mem)

/-- A request whose sector has a chain in the registers joins it, marked if nothing would mark it.
-/
def coalesce (req : MemReq) (k : SectorKey) : Option (CacheBank × Sent × Taken) := do
  if b.mshr.full mshrSize then none
  else
    let (mshr, id) ← b.mshr.enqueue mshrSize (b.stamped req .core) k
    let mshr ← (if mshr.hasPendingFill mshrSize k (some id) then some mshr
      else mshr.deferToReplay id : Option Mshr)
    some ({ b with mshr, admSeqCtr := b.admSeqCtr + 1 }, nothing, .core)

def takeAmo (req : MemReq) (k : SectorKey) : Option (CacheBank × Sent × Taken) :=
  let freeSlots := (List.range amoPassthruCap).countP fun i => !(b.amoPassthru i).valid
  if freeSlots ≤ b.pendingAmoProbes then some (b, nothing, .nothing)
  else if b.mshr.lookup mshrSize k then some (b, nothing, .nothing)
  else if (k.setId, k.addrTag) ∈ b.pipeCoreLines then some (b, nothing, .nothing)
  else some ({ b.pushPipe (b.stamped req .amoProbe) with
      admSeqCtr := b.admSeqCtr + 1, pendingAmoProbes := b.pendingAmoProbes + 1 }, nothing, .core)

def takeCoreReq (req : MemReq) : Option (CacheBank × Sent × Taken) :=
  let k := key req.addr
  if req.op.isAtomic && (req.op.isAmoRmw || !isLlc) then b.takeAmo req k
  else if mshrSize ≤ b.mshr.size + b.pendingMshrSize then some (b, nothing, .nothing)
  else
    let isWtStore := decide (req.op = .st) && !writeBack
    if !isWtStore && decide (b.mshr.size ≠ 0) && b.mshr.lookup mshrSize k then b.coalesce req k
    else some ({ b.pushPipe (b.stamped req .core) with
        admSeqCtr := b.admSeqCtr + 1
        pendingMshrSize := b.pendingMshrSize + 1
        pipeCoreLines := b.pipeCoreLines ++ [(k.setId, k.addrTag)] }, nothing, .core)

def processInputs (bankId : ℕ) (fwdConsumed : Bool) (coreReq : Option MemReq)
    (memRsp : Option MemRsp) (rspSlots : ℕ) : Option (CacheBank × Sent × Taken) :=
  if b.pipeFull then some (b, nothing, .nothing)
  else if b.mshr.hasReadyReqs && !fwdConsumed then do
    let (mshr, req) ← b.mshr.dequeue mshrSize
    some ({ b with mshr }.pushPipe req, nothing, .nothing)
  else match memRsp.filter (fun _ => !b.fwdActive) with
    | some rsp => b.takeMemRsp bankId rsp rspSlots
    | none =>
      match coreReq with
      | some req => b.takeCoreReq req
      | none => some (b, nothing, .nothing)

end

/-- What a bank sees of its channels in a tick: the heads of the two inputs and the free slots of
the two outputs. -/
structure Ports where
  coreReq : Option MemReq
  memRsp : Option MemRsp
  memSlots : ℕ
  rspSlots : ℕ

def age (b : CacheBank) : CacheBank :=
  { b with pipeReq := b.pipeReq.map (fun e => (e.1, e.2 - 1)), crspSent := false }

def tick (b : CacheBank) (bankId : ℕ) (p : Ports) : Option (CacheBank × Sent × Taken) := do
  let (b, sent) ← b.age.processRequests bankId p.memSlots p.rspSlots
  let (b, fwd, fwdConsumed) ← b.processForward (p.rspSlots - sent.rsps.length)
  let sent := sent.append fwd
  let (b, inp, taken) ← b.processInputs bankId fwdConsumed p.coreReq p.memRsp
    (p.rspSlots - sent.rsps.length)
  some (b, sent.append inp, taken)

end CacheBank

end VortexGpu.Cache

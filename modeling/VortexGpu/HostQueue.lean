import VortexGpu.HostWork

/-!
# Queues: entry points and worker

An entry point checks its arguments, takes a reference to everything its closure will need, and
pushes a command with its wait list and a fresh completion event. The worker of the queue takes the
commands in order, waits for the events of the wait list, runs the closure unless one of them has
failed, and completes its event.
-/

namespace VortexGpu.Api
open Word ByteMem Simx Api.Action

/-- The wait list of a call: a count, and a pointer that may be null to handles that may be null. -/
structure WaitArgs where
  nw : ℕ
  w : Option (ℕ → Option ℕ)
  nw_lt : nw < 2 ^ 32

def WaitArgs.handles (wa : WaitArgs) (w : ℕ → Option ℕ) : List (Option ℕ) :=
  (List.range wa.nw).map w

structure Command where
  waits : List ℕ
  completion : ℕ
  work : Work

structure Enqueued where
  result : VxResult
  command : Option Command
  host : Host

namespace Host

def captureWaits : List (Option ℕ) → Host → Option (List ℕ) × Host
  | [], h => (some [], h)
  | none :: _, h => (none, h)
  | some e :: ws, h =>
    let r := captureWaits ws (h.retain (.event e))
    (r.1.map (e :: ·), r.2)

def createEvent (h : Host) : Host :=
  { h with nextEvent := h.nextEvent + 1, refs := Function.update h.refs (.event h.nextEvent) 1 }

def push (waits : List ℕ) (work : Work) (out : Bool) (h : Host) : Enqueued :=
  let ev := Obj.event h.nextEvent
  let h' := h.createEvent.retain ev
  ⟨.success, some ⟨waits, h.nextEvent, work⟩, if out then h' else h'.release ev⟩

def enqueue (work : Work) (wa : WaitArgs) (out : Bool) (h : Host) : Enqueued :=
  match wa.w with
  | none => if wa.nw ≠ 0 then ⟨.invalidValue, none, h⟩ else h.push [] work out
  | some w =>
    match h.captureWaits (wa.handles w) with
    | (none, h) => ⟨.invalidHandle, none, h⟩
    | (some waits, h) => h.push waits work out

/-- `enqueue` for a closure whose objects are retained: they are released if it fails. -/
def enqueueHeld (work : Work) (wa : WaitArgs) (out : Bool) (h : Host) : Enqueued :=
  let r := h.enqueue work wa out
  if r.result ≠ .success then { r with host := r.host.releaseAll work.objs } else r

def reject (r : VxResult) (h : Host) : Enqueued := ⟨r, none, h⟩

variable (wa : WaitArgs) (out : Bool)

def enqueueWrite (dst : Option Buffer) (off : ℕ) (host : Option Mem) (sz : ℕ) (h : Host) :
    Enqueued :=
  match dst with
  | none => h.reject .invalidValue
  | some dst =>
    if host.isNone ∧ sz ≠ 0 then h.reject .invalidValue
    else if dst.size < add64 off sz then h.reject .invalidValue
    else (h.retainAll [dst.obj]).enqueueHeld (.write dst off host sz) wa out

def enqueueRead (host : Bool) (src : Option Buffer) (so sz : ℕ) (h : Host) : Enqueued :=
  match src with
  | none => h.reject .invalidValue
  | some src =>
    if host = false ∧ sz ≠ 0 then h.reject .invalidValue
    else if src.size < add64 so sz then h.reject .invalidValue
    else (h.retainAll [src.obj]).enqueueHeld (.read host src so sz) wa out

def enqueueCopy (dst : Option Buffer) (dOff : ℕ) (src : Option Buffer) (so sz : ℕ) (h : Host) :
    Enqueued :=
  match dst, src with
  | some dst, some src =>
    if dst.size < add64 dOff sz then h.reject .invalidValue
    else if src.size < add64 so sz then h.reject .invalidValue
    else (h.retainAll [dst.obj, src.obj]).enqueueHeld (.copy dst dOff src so sz) wa out
  | _, _ => h.reject .invalidValue

def enqueueFillBuffer (dst : Option Buffer) (offset size : ℕ) (pattern : Option Mem)
    (patternSize : ℕ) (h : Host) : Enqueued :=
  match dst, pattern with
  | some dst, some pattern =>
    if patternSize = 0 then h.reject .invalidValue
    else if size % patternSize ≠ 0 then h.reject .invalidValue
    else if dst.size < add64 offset size then h.reject .invalidValue
    else (h.retainAll [dst.obj]).enqueueHeld
      (.fill dst offset size (readBytes pattern 0 patternSize)) wa out
  | _, _ => h.reject .invalidValue

end Host

structure RectInfo where
  structSize : ℕ
  bufferOrigin : Dim3
  hostOrigin : Dim3
  region : Dim3
  bufferRowPitch : ℕ
  bufferSlicePitch : ℕ
  hostRowPitch : ℕ
  hostSlicePitch : ℕ
deriving DecidableEq, Repr

def sizeofRectInfo : ℕ := 120

def orElse (n default : ℕ) : ℕ := if n = 0 then default else n

/-- Pitches that are zero get their defaults; `none` is a region or pitch that is refused. -/
def resolveRect (info : RectInfo) : Option ResolvedRect :=
  let r := info.region
  if r.x = 0 ∨ r.y = 0 ∨ r.z = 0 then none
  else
    let bufferRow := orElse info.bufferRowPitch r.x
    let bufferSlice := orElse info.bufferSlicePitch (mul64 bufferRow r.y)
    let hostRow := orElse info.hostRowPitch r.x
    let hostSlice := orElse info.hostSlicePitch (mul64 hostRow r.y)
    if bufferRow < r.x ∨ hostRow < r.x then none
    else if bufferSlice < mul64 bufferRow r.y ∨ hostSlice < mul64 hostRow r.y then none
    else some ⟨r, info.bufferOrigin, info.hostOrigin, bufferRow, bufferSlice, hostRow,
      hostSlice⟩

def rectSpan (region origin : Dim3) (rowPitch slicePitch : ℕ) : ℕ :=
  add64 (Work.rectOff origin rowPitch slicePitch (sub64 region.z 1) (sub64 region.y 1)) region.x

def ResolvedRect.bufferSpan (r : ResolvedRect) : ℕ :=
  rectSpan r.region r.bufferOrigin r.bufferRow r.bufferSlice

def ResolvedRect.hostSpan (r : ResolvedRect) : ℕ :=
  rectSpan r.region r.hostOrigin r.hostRow r.hostSlice

namespace Host

variable (wa : WaitArgs) (out : Bool)

def withRect (info : Option RectInfo) (h : Host) (use : ResolvedRect → Enqueued) : Enqueued :=
  match info with
  | none => h.reject .invalidValue
  | some info =>
    if info.structSize < sizeofRectInfo then h.reject .invalidInfo
    else match resolveRect info with
      | none => h.reject .invalidValue
      | some rr => use rr

def enqueueReadRect (hostDst : Bool) (src : Option Buffer) (info : Option RectInfo) (h : Host) :
    Enqueued :=
  match src with
  | none => h.reject .invalidValue
  | some src =>
    if hostDst = false then h.reject .invalidValue
    else h.withRect info fun rr =>
      if src.size < rr.bufferSpan then h.reject .invalidValue
      else (h.retainAll [src.obj]).enqueueHeld (.readRect src rr) wa out

def enqueueWriteRect (dst : Option Buffer) (hostSrc : Option Mem) (info : Option RectInfo)
    (h : Host) : Enqueued :=
  match dst, hostSrc with
  | some dst, some hostSrc => h.withRect info fun rr =>
      if dst.size < rr.bufferSpan then h.reject .invalidValue
      else (h.retainAll [dst.obj]).enqueueHeld (.writeRect dst hostSrc rr) wa out
  | _, _ => h.reject .invalidValue

def enqueueCopyRect (dst src : Option Buffer) (info : Option RectInfo) (h : Host) : Enqueued :=
  match dst, src with
  | some dst, some src => h.withRect info fun rr =>
      if dst.size < rr.bufferSpan then h.reject .invalidValue
      else if src.size < rr.hostSpan then h.reject .invalidValue
      else (h.retainAll [dst.obj, src.obj]).enqueueHeld (.copyRect dst src rr) wa out
  | _, _ => h.reject .invalidValue

end Host

structure LaunchInfo where
  structSize : ℕ
  kernel : Option Kernel
  argsHost : Option Mem
  argsSize : ℕ
  ndim : ℕ
  gridDim : Dim3
  blockDim : Dim3
  lmemSize : ℕ
  clusterDim : Dim3

def sizeofLaunchInfo : ℕ := 88

namespace LaunchInfo

def check (info : LaunchInfo) : VxResult :=
  if info.structSize < sizeofLaunchInfo then .invalidInfo
  else if 3 < info.ndim then .invalidValue
  else if info.argsSize ≠ 0 ∧ info.argsHost.isNone then .invalidValue
  else .success

def args (info : LaunchInfo) : List UInt8 :=
  match info.argsHost with
  | none => []
  | some p => readBytes p 0 info.argsSize

def axes (ndim : ℕ) (d : Dim3) : Dim3 := effBlock ndim d

def cluster (info : LaunchInfo) : Dim3 :=
  axes info.ndim ⟨orElse info.clusterDim.x 1, orElse info.clusterDim.y 1,
    orElse info.clusterDim.z 1⟩

def divides (info : LaunchInfo) : Bool :=
  let g := axes info.ndim info.gridDim
  let c := info.cluster
  decide (g.x % c.x = 0) && decide (g.y % c.y = 0) && decide (g.z % c.z = 0)

def capture (info : LaunchInfo) : LaunchRec :=
  ⟨info.kernel, info.args, info.ndim, info.lmemSize, axes info.ndim info.gridDim,
    axes info.ndim info.blockDim, info.cluster⟩

end LaunchInfo

inductive VxCommand where
  | dcrWrite (addr value : ℕ)
  | launch (info : Option LaunchInfo)
  | other

/-- Validates and copies a list; `retained` are the kernels taken so far, which a failure gives
back. -/
def cmdBuildRecs : List VxCommand → List CmdRec → List Obj → Host →
    Except VxResult (List CmdRec) × Host
  | [], recs, _, h => (.ok recs, h)
  | .dcrWrite addr value :: cs, recs, retained, h =>
    cmdBuildRecs cs (recs ++ [.dcr addr value]) retained h
  | .launch none :: _, _, retained, h => (.error .invalidValue, h.releaseAll retained)
  | .launch (some info) :: cs, recs, retained, h =>
    if info.check ≠ .success then (.error info.check, h.releaseAll retained)
    else if info.divides = false then
      (.error .invalidValue,
        (h.retainAll info.capture.objs).releaseAll (retained ++ info.capture.objs))
    else cmdBuildRecs cs (recs ++ [.launch info.capture]) (retained ++ info.capture.objs)
      (h.retainAll info.capture.objs)
  | .other :: _, _, retained, h => (.error .invalidValue, h.releaseAll retained)

structure CommandList where
  commands : List VxCommand
  count_lt : commands.length < 2 ^ 32

namespace Host

variable (dev : Device) (wa : WaitArgs) (out : Bool)

def enqueueLaunch (info : Option LaunchInfo) (h : Host) : Enqueued :=
  match info with
  | none => h.reject .invalidValue
  | some info =>
    if info.check ≠ .success then h.reject info.check
    else
      let h := h.retainAll info.capture.objs
      if info.divides = false then (h.releaseAll info.capture.objs).reject .invalidValue
      else h.enqueueHeld (.launch info.capture) wa out

def enqueueList (work : List CmdRec → Work) (commands : Option CommandList) (h : Host) :
    Enqueued :=
  match commands with
  | none => h.reject .invalidValue
  | some cs =>
    if cs.commands = [] then h.reject .invalidValue
    else match cmdBuildRecs cs.commands [] [] h with
      | (.error e, h) => h.reject e
      | (.ok recs, h) => h.enqueueHeld (work recs) wa out

def enqueueCommands (commands : Option CommandList) (h : Host) : Enqueued :=
  h.enqueueList wa out .commands commands

def enqueueDraw (commands : Option CommandList) (h : Host) : Enqueued :=
  h.enqueueList wa out .draw commands

def enqueueBarrier (h : Host) : Enqueued := h.enqueue .barrier wa out

def enqueueDcrWrite (addr value : ℕ) (h : Host) : Enqueued :=
  h.enqueue (.dcrWrite addr value) wa out

def enqueueDcrRead (addr : ℕ) (hostDst : Bool) (h : Host) : Enqueued :=
  if hostDst = false then h.reject .invalidValue else h.enqueue (.dcrRead addr) wa out

def mapReserve (buf : Buffer) (off size flags : ℕ) : Action := fun h =>
  if buf.size < add64 off size then (.invalidValue, h)
  else if (h.mapped buf.id).isSome then (.notSupported, h)
  else
    let m := h.perform dev (.malloc size)
    if m.1.result ≠ .success then (.outOfHostMemory, m.2)
    else (.success,
      { m.2 with
        mapped := Function.update m.2.mapped buf.id (some ⟨m.1.value, off, size, flags⟩) })

def mapCancel (buf : Buffer) (h : Host) : Host :=
  { h with mapped := Function.update h.mapped buf.id none }

def enqueueMap (buf : Option Buffer) (off size flags : ℕ) (outHostPtr : Bool) (h : Host) :
    Enqueued :=
  match buf with
  | none => h.reject .invalidValue
  | some buf =>
    if outHostPtr = false then h.reject .invalidValue
    else
      let m := h.mapReserve dev buf off size flags
      if m.1 ≠ .success then m.2.reject m.1
      else
        let r := (m.2.retainAll [buf.obj]).enqueueHeld (.map buf) wa out
        if r.result ≠ .success then { r with host := r.host.mapCancel buf } else r

def enqueueUnmap (buf : Option Buffer) (hostPtr : ℕ) (mirror : Mem) (h : Host) : Enqueued :=
  match buf with
  | none => h.reject .invalidHandle
  | some buf => (h.retainAll [buf.obj]).enqueueHeld (.unmap buf hostPtr mirror) wa out

/-- The target stays retained when `enqueue` fails. -/
def enqueueSignal (ev : Option ℕ) (value : ℕ) (h : Host) : Enqueued :=
  match ev with
  | none => h.reject .invalidHandle
  | some ev => (h.retainAll [.event ev]).enqueue (.signal ev value) wa out

def enqueueWaitValue (ev : Option ℕ) (value : ℕ) (h : Host) : Enqueued :=
  match ev with
  | none => h.reject .invalidHandle
  | some ev => (h.retainAll [.event ev]).enqueue (.waitValue ev value) wa out

end Host

inductive Call where
  | write (dst : Option Buffer) (off : ℕ) (host : Option Mem) (sz : ℕ)
  | read (host : Bool) (src : Option Buffer) (so sz : ℕ)
  | copy (dst : Option Buffer) (dOff : ℕ) (src : Option Buffer) (so sz : ℕ)
  | launch (info : Option LaunchInfo)
  | commands (commands : Option CommandList)
  | draw (commands : Option CommandList)
  | barrier
  | readRect (hostDst : Bool) (src : Option Buffer) (info : Option RectInfo)
  | writeRect (dst : Option Buffer) (hostSrc : Option Mem) (info : Option RectInfo)
  | copyRect (dst src : Option Buffer) (info : Option RectInfo)
  | fillBuffer (dst : Option Buffer) (offset size : ℕ) (pattern : Option Mem) (patternSize : ℕ)
  | map (buf : Option Buffer) (off size flags : ℕ) (outHostPtr : Bool)
  | unmap (buf : Option Buffer) (hostPtr : ℕ) (mirror : Mem)
  | dcrWrite (addr value : ℕ)
  | dcrRead (addr : ℕ) (hostDst : Bool)
  | signal (ev : Option ℕ) (value : ℕ)
  | waitValue (ev : Option ℕ) (value : ℕ)

def Call.enqueue (dev : Device) (wa : WaitArgs) (out : Bool) (h : Host) : Call → Enqueued
  | .write dst off host sz => h.enqueueWrite wa out dst off host sz
  | .read host src so sz => h.enqueueRead wa out host src so sz
  | .copy dst dOff src so sz => h.enqueueCopy wa out dst dOff src so sz
  | .launch info => h.enqueueLaunch wa out info
  | .commands cs => h.enqueueCommands wa out cs
  | .draw cs => h.enqueueDraw wa out cs
  | .barrier => h.enqueueBarrier wa out
  | .readRect hostDst src info => h.enqueueReadRect wa out hostDst src info
  | .writeRect dst hostSrc info => h.enqueueWriteRect wa out dst hostSrc info
  | .copyRect dst src info => h.enqueueCopyRect wa out dst src info
  | .fillBuffer dst offset size pattern patternSize =>
    h.enqueueFillBuffer wa out dst offset size pattern patternSize
  | .map buf off size flags outHostPtr => h.enqueueMap dev wa out buf off size flags outHostPtr
  | .unmap buf hostPtr mirror => h.enqueueUnmap wa out buf hostPtr mirror
  | .dcrWrite addr value => h.enqueueDcrWrite wa out addr value
  | .dcrRead addr hostDst => h.enqueueDcrRead wa out addr hostDst
  | .signal ev value => h.enqueueSignal wa out ev value
  | .waitValue ev value => h.enqueueWaitValue wa out ev value

namespace Command

/-- Waits for the events from position `i` on and releases them; after a failure the others are
not waited for. -/
def waitAll (outcome : ℕ → VxResult) : ℕ → List ℕ → VxResult → Host →
    VxResult × Host
  | _, [], r, h => (r, h)
  | i, dep :: deps, r, h =>
    waitAll outcome (i + 1) deps (if r = .success then outcome i else r) (h.release (.event dep))

/-- One round of the worker. `outcome` is what the wait at each position of the list returns. -/
def run (dev : Device) (outcome : ℕ → VxResult) (fuel : ℕ) (cmd : Command) (h : Host) :
    Option VxResult × Host :=
  let w := waitAll outcome 0 cmd.waits .success h
  let r := if w.1 = .success then cmd.work.run dev fuel w.2 else (some w.1, w.2)
  match r.1 with
  | none => r
  | some status =>
    (r.1, (r.2.notify dev (.complete cmd.completion status)).release (.event cmd.completion))

end Command

end VortexGpu.Api

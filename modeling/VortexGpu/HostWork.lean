import VortexGpu.HostDevice
import VortexGpu.CtaThreads

/-!
# The work of a queued command

A queued command carries a closure that its worker runs. A closure is given by what it has
captured, one constructor for each entry point of the queue, and `Work.run` is its body. Each
closure gives back the references its entry point has taken, on every path that leaves it.
-/

namespace VortexGpu.Api
open Word ByteMem Simx Api.Action

structure Buffer where
  id : ℕ
  devAddr : ℕ
  size : ℕ
  size_lt : size < 2 ^ 64
  inside : devAddr + size ≤ 2 ^ 64

structure Kernel where
  id : ℕ
  pc : ℕ
  moduleBase : ℕ
deriving DecidableEq, Repr

structure LaunchRec where
  kernel : Option Kernel
  args : List UInt8
  ndim : ℕ
  lmemSize : ℕ
  grid : Dim3
  block : Dim3
  cluster : Dim3

inductive CmdRec where
  | dcr (addr value : ℕ)
  | launch (rec : LaunchRec)

structure ResolvedRect where
  region : Dim3
  bufferOrigin : Dim3
  hostOrigin : Dim3
  bufferRow : ℕ
  bufferSlice : ℕ
  hostRow : ℕ
  hostSlice : ℕ
deriving DecidableEq, Repr

inductive Work where
  | write (dst : Buffer) (off : ℕ) (host : Option Mem) (sz : ℕ)
  | read (host : Bool) (src : Buffer) (so sz : ℕ)
  | copy (dst : Buffer) (dOff : ℕ) (src : Buffer) (so sz : ℕ)
  | launch (rec : LaunchRec)
  | commands (recs : List CmdRec)
  | draw (recs : List CmdRec)
  | barrier
  | readRect (src : Buffer) (rr : ResolvedRect)
  | writeRect (dst : Buffer) (host : Mem) (rr : ResolvedRect)
  | copyRect (dst src : Buffer) (rr : ResolvedRect)
  | fill (dst : Buffer) (offset size : ℕ) (pat : List UInt8)
  | map (buf : Buffer)
  | unmap (buf : Buffer) (hostPtr : ℕ) (mirror : Mem)
  | dcrWrite (addr value : ℕ)
  | dcrRead (addr : ℕ)
  | signal (ev value : ℕ)
  | waitValue (ev value : ℕ)

def Kernel.obj (k : Kernel) : Obj := .kernel k.id

def Buffer.obj (b : Buffer) : Obj := .buffer b.id

def LaunchRec.objs (l : LaunchRec) : List Obj := l.kernel.toList.map Kernel.obj

def CmdRec.objs : CmdRec → List Obj
  | .dcr _ _ => []
  | .launch l => l.objs

def Work.objs : Work → List Obj
  | .write dst _ _ _ => [dst.obj]
  | .read _ src _ _ => [src.obj]
  | .copy dst _ src _ _ => [src.obj, dst.obj]
  | .launch l => l.objs
  | .commands recs => recs.flatMap CmdRec.objs
  | .draw recs => recs.flatMap CmdRec.objs
  | .barrier => []
  | .readRect src _ => [src.obj]
  | .writeRect dst _ _ => [dst.obj]
  | .copyRect dst src _ => [src.obj, dst.obj]
  | .fill dst _ _ _ => [dst.obj]
  | .map buf => [buf.obj]
  | .unmap buf _ _ => [buf.obj]
  | .dcrWrite _ _ => []
  | .dcrRead _ => []
  | .signal ev _ => [.event ev]
  | .waitValue ev _ => [.event ev]

namespace Host

def retainAll (h : Host) (os : List Obj) : Host := os.foldl retain h

def releaseAll (h : Host) (os : List Obj) : Host := os.foldl release h

end Host

namespace LaunchRec

def dcrStartupAddr0 : ℕ := 0x010
def dcrStartupAddr1 : ℕ := 0x011
def dcrKernelEntry0 : ℕ := 0x012
def dcrKernelEntry1 : ℕ := 0x013
def dcrStartupArg0 : ℕ := 0x014
def dcrStartupArg1 : ℕ := 0x015
def dcrBlockDimX : ℕ := 0x016
def dcrBlockDimY : ℕ := 0x017
def dcrBlockDimZ : ℕ := 0x018
def dcrGridDimX : ℕ := 0x019
def dcrGridDimY : ℕ := 0x01A
def dcrGridDimZ : ℕ := 0x01B
def dcrLmemSize : ℕ := 0x01C
def dcrBlockSize : ℕ := 0x01D
def dcrWarpStepX : ℕ := 0x01E
def dcrWarpStepY : ℕ := 0x01F
def dcrWarpStepZ : ℕ := 0x020
def dcrClusterDimX : ℕ := 0x021
def dcrClusterDimY : ℕ := 0x022
def dcrClusterDimZ : ℕ := 0x023

def lo32 (a : ℕ) : ℕ := a % 2 ^ 32
def hi32 (a : ℕ) : ℕ := a / 2 ^ 32

def kernelDcrs : Option Kernel → List (ℕ × ℕ)
  | none => []
  | some k => [(dcrStartupAddr0, lo32 k.moduleBase), (dcrStartupAddr1, hi32 k.moduleBase),
      (dcrKernelEntry0, lo32 k.pc), (dcrKernelEntry1, hi32 k.pc)]

def argsDcrs : Option ℕ → List (ℕ × ℕ)
  | none => []
  | some addr => [(dcrStartupArg0, lo32 addr), (dcrStartupArg1, hi32 addr)]

def shapeDcrs (l : LaunchRec) (tpw : ℕ) : List (ℕ × ℕ) :=
  if l.ndim = 0 then []
  else
    let eff := effBlock l.ndim l.block
    let step := warpStep l.ndim tpw eff
    [(dcrBlockDimX, eff.x), (dcrBlockDimY, eff.y), (dcrBlockDimZ, eff.z),
      (dcrGridDimX, l.grid.x), (dcrGridDimY, if 2 ≤ l.ndim then l.grid.y else 1),
      (dcrGridDimZ, if 3 ≤ l.ndim then l.grid.z else 1), (dcrLmemSize, l.lmemSize),
      (dcrBlockSize, launchBlockSize l.ndim eff),
      (dcrWarpStepX, step.x), (dcrWarpStepY, step.y), (dcrWarpStepZ, step.z),
      (dcrClusterDimX, l.cluster.x), (dcrClusterDimY, l.cluster.y), (dcrClusterDimZ, l.cluster.z)]

/-- The register writes that describe a launch, in order; `args` is where its arguments are. -/
def dcrs (l : LaunchRec) (tpw : ℕ) (args : Option ℕ) : List (ℕ × ℕ) :=
  kernelDcrs l.kernel ++ argsDcrs args ++ l.shapeDcrs tpw

def qmdWords (ds : List (ℕ × ℕ)) : List ℕ := ds.length :: ds.flatMap fun d => [d.1, d.2]

def wordBytes (ws : List ℕ) : List UInt8 := ws.flatMap (bytesLE 4)

end LaunchRec

namespace Work
open LaunchRec

variable (dev : Device)

def slotRelease (slot : Option (ℕ × Bool)) (h : Host) : Host :=
  match slot with
  | .none => h
  | some (addr, pooled) => dev.argsSlotRelease addr pooled h

/-- The register writes and the launch, with the arguments at `args`. A failed write gives the
slot and the kernel back and leaves. -/
def launchSubmit (l : LaunchRec) (tpw : ℕ) (args : Option (ℕ × Bool)) (h : Host) :
    VxResult × Host :=
  let w := runAll (fun d => dev.cpSubmitDcrWrite d.1 d.2) (l.dcrs tpw (args.map Prod.fst)) h
  if w.1 ≠ .success then (w.1, (slotRelease dev args w.2).releaseAll l.objs)
  else
    let r := dev.cpSubmitLaunch w.2
    (r.1, (slotRelease dev args r.2).releaseAll l.objs)

def launchStage (l : LaunchRec) (tpw : ℕ) (h : Host) : VxResult × Host :=
  if l.args = [] then launchSubmit dev l tpw none h
  else
    let a := h.perform dev (.argsSlotAcquire l.args.length)
    if a.1.result ≠ .success then (a.1.result, a.2.releaseAll l.objs)
    else
      let w := dev.devWrite a.1.value (some fun i => l.args.getD i 0) l.args.length a.2
      if w.1 ≠ .success then (w.1, (dev.argsSlotRelease a.1.value a.1.flag w.2).releaseAll l.objs)
      else launchSubmit dev l tpw (some (a.1.value, a.1.flag)) w.2

def launchWork (l : LaunchRec) (h : Host) : VxResult × Host :=
  if l.ndim = 0 then launchStage dev l 0 h
  else
    let t := h.perform dev (.queryCaps .numThreads)
    if t.1.result ≠ .success then (t.1.result, t.2.releaseAll l.objs)
    else
      let w := t.2.perform dev (.queryCaps .numWarps)
      if w.1.result ≠ .success then (w.1.result, w.2.releaseAll l.objs)
      else launchStage dev l (t.1.value % 2 ^ 32) w.2

/-- What one launch of a list has staged: its arguments, its descriptor, and the register writes
of the descriptor. -/
structure CmdStaged where
  args : Option (ℕ × Bool)
  qmd : Option (ℕ × Bool)
  dcrs : List (ℕ × ℕ)

def CmdStaged.none : CmdStaged := ⟨.none, .none, []⟩

def stageQmd (l : LaunchRec) (tpw : ℕ) (args : Option (ℕ × Bool)) (h : Host) :
    VxResult × CmdStaged × Host :=
  let ds := l.dcrs tpw (args.map Prod.fst)
  if dev.supportsQmd = false then (.success, ⟨args, .none, ds⟩, h)
  else
    let bytes := wordBytes (qmdWords ds)
    let a := h.perform dev (.argsSlotAcquire bytes.length)
    if a.1.result ≠ .success then (a.1.result, ⟨args, .none, ds⟩, a.2)
    else
      let w := dev.devWrite a.1.value (some fun i => bytes.getD i 0) bytes.length a.2
      (w.1, ⟨args, some (a.1.value, a.1.flag), ds⟩, w.2)

def stageLaunch (l : LaunchRec) (tpw : ℕ) (h : Host) : VxResult × CmdStaged × Host :=
  if l.args = [] then stageQmd dev l tpw none h
  else
    let a := h.perform dev (.argsSlotAcquire l.args.length)
    if a.1.result ≠ .success then (a.1.result, .none, a.2)
    else
      let w := dev.devWrite a.1.value (some fun i => l.args.getD i 0) l.args.length a.2
      if w.1 ≠ .success then (w.1, ⟨some (a.1.value, a.1.flag), .none, []⟩, w.2)
      else stageQmd dev l tpw (some (a.1.value, a.1.flag)) w.2

def cmdStageQmds (tpw : ℕ) : List CmdRec → Host → VxResult × List CmdStaged × Host
  | [], h => (.success, [], h)
  | .dcr _ _ :: recs, h =>
    let r := cmdStageQmds tpw recs h
    (r.1, .none :: r.2.1, r.2.2)
  | .launch l :: recs, h =>
    let s := stageLaunch dev l tpw h
    if s.1 ≠ .success then (s.1, s.2.1 :: recs.map fun _ => .none, s.2.2)
    else
      let r := cmdStageQmds tpw recs s.2.2
      (r.1, s.2.1 :: r.2.1, r.2.2)

def slotAddr : Option (ℕ × Bool) → ℕ
  | .none => 0
  | some (addr, _) => addr

def cmdSubmitLaunch (st : CmdStaged) : Action :=
  if dev.supportsQmd then dev.cpSubmitLaunchQmd (slotAddr st.qmd)
  else andThen (runAll (fun d => dev.cpSubmitDcrWrite d.1 d.2) st.dcrs) dev.cpSubmitLaunch

def cmdSubmit : CmdRec × CmdStaged → Action
  | (.dcr addr value, _) => dev.cpSubmitDcrWrite addr value
  | (.launch _, st) => cmdSubmitLaunch dev st

def submitBatch (items : List (CmdRec × CmdStaged)) : Action := fun h =>
  let r := runAll (cmdSubmit dev) items (h.notify dev .batchBegin)
  let e := r.2.perform dev .batchEnd
  (if r.1 = .success then e.1.result else r.1, e.2)

def stagedRelease (h : Host) (st : CmdStaged) : Host :=
  slotRelease dev st.qmd (slotRelease dev st.args h)

def queryAll (caps : List Cap) : Action := runAll (fun c => perform dev (.queryCaps c)) caps

def recObjs (recs : List CmdRec) : List Obj := recs.flatMap CmdRec.objs

def commandsWork (recs : List CmdRec) (h : Host) : VxResult × Host :=
  let tpw := (h.perform dev (.queryCaps .numThreads)).1.value % 2 ^ 32
  let q := queryAll dev [.numThreads, .numWarps] h
  if q.1 ≠ .success then (q.1, q.2.releaseAll (recObjs recs))
  else
    let s := cmdStageQmds dev tpw recs q.2
    let b := if s.1 = .success then submitBatch dev (recs.zip s.2.1) s.2.2 else (s.1, s.2.2)
    (b.1, (s.2.1.foldl (stagedRelease dev) b.2).releaseAll (recObjs recs))

def stepBytes (opcode a0 a1 : ℕ) : List UInt8 :=
  bytesLE 4 opcode ++ bytesLE 8 a0 ++ bytesLE 8 a1 ++ bytesLE 8 0

def drawSteps (numCores : ℕ) : CmdRec × CmdStaged → List (ℕ × ℕ × ℕ)
  | (.dcr addr value, _) => [(Device.opDcrWrite, addr, value)]
  | (.launch _, st) =>
    [(Device.opLaunchQmd, slotAddr st.qmd, 0), (Device.opCacheFlush, numCores, 0)]

def drawDescriptor (numCores : ℕ) (items : List (CmdRec × CmdStaged)) : List UInt8 :=
  let steps := items.flatMap (drawSteps numCores)
  bytesLE 4 steps.length ++ steps.flatMap fun s => stepBytes s.1 s.2.1 s.2.2

def submitDescriptor (bytes : List UInt8) (h : Host) : VxResult × Option (ℕ × Bool) × Host :=
  let a := h.perform dev (.argsSlotAcquire bytes.length)
  if a.1.result ≠ .success then (a.1.result, .none, a.2)
  else
    let r := andThen (dev.devWrite a.1.value (some fun i => bytes.getD i 0) bytes.length)
      (dev.cpSubmitDraw a.1.value) a.2
    (r.1, some (a.1.value, a.1.flag), r.2)

def drawWork (recs : List CmdRec) (h : Host) : VxResult × Host :=
  let t := h.perform dev (.queryCaps .numThreads)
  let w := t.2.perform dev (.queryCaps .numWarps)
  let numCores := (w.2.perform dev (.queryCaps .numCores)).1.value
  let q := queryAll dev [.numThreads, .numWarps, .numCores] h
  if q.1 ≠ .success then (q.1, q.2.releaseAll (recObjs recs))
  else
    let s := cmdStageQmds dev (t.1.value % 2 ^ 32) recs q.2
    let b :=
      if s.1 ≠ .success then (s.1, .none, s.2.2)
      else if dev.supportsDraw && dev.supportsQmd then
        submitDescriptor dev (drawDescriptor numCores (recs.zip s.2.1)) s.2.2
      else
        let r := submitBatch dev (recs.zip s.2.1) s.2.2
        (r.1, .none, r.2)
    (b.1, (s.2.1.foldl (stagedRelease dev) (slotRelease dev b.2.1 b.2.2)).releaseAll (recObjs recs))

def rectOff (origin : Dim3) (rowPitch slicePitch sl row : ℕ) : ℕ :=
  add64 (add64 (mul64 (add64 origin.z sl) slicePitch) (mul64 (add64 origin.y row) rowPitch))
    origin.x

/-- Rows of a rectangle as offsets in the buffer and on the other side, with their length; a
contiguous rectangle is one row. -/
def rectRows (r : ResolvedRect) : List (ℕ × ℕ × ℕ) :=
  if r.bufferRow = r.region.x ∧ r.hostRow = r.region.x ∧
      r.bufferSlice = mul64 r.region.y r.region.x ∧ r.hostSlice = mul64 r.region.y r.region.x then
    [(rectOff r.bufferOrigin r.bufferRow r.bufferSlice 0 0,
      rectOff r.hostOrigin r.hostRow r.hostSlice 0 0,
      mul64 (mul64 r.region.x r.region.y) r.region.z)]
  else
    (List.range r.region.z).flatMap fun sl => (List.range r.region.y).map fun row =>
      (rectOff r.bufferOrigin r.bufferRow r.bufferSlice sl row,
        rectOff r.hostOrigin r.hostRow r.hostSlice sl row, r.region.x)

def kChunkCap : ℕ := 64 * 1024

def fillChunk (size patLen : ℕ) : ℕ := min (kChunkCap - kChunkCap % patLen) size

/-- The upload loop of a fill; `none` is a loop that has not ended. -/
def fillLoop (base chunk size : ℕ) (staging : Mem) :
    ℕ → ℕ → Host → Option VxResult × Host
  | 0, _, h => (.none, h)
  | fuel + 1, done, h =>
    if size ≤ done then (some .success, h)
    else
      let r := dev.devWrite (add64 base done) (some staging) (min chunk (size - done)) h
      if r.1 ≠ .success then (some r.1, r.2)
      else fillLoop base chunk size staging fuel (add64 done chunk) r.2

def vxMemRead : ℕ := 0x1
def vxMemWrite : ℕ := 0x2

def mapCommit (buf : Buffer) : Action := fun h =>
  match h.mapped buf.id with
  | .none => (.invalidValue, h)
  | some m =>
    if m.flags &&& vxMemRead ≠ 0 ∧ m.size ≠ 0 then
      dev.devRead true (add64 buf.devAddr m.off) m.size h
    else (.success, h)

def bufferUnmap (buf : Buffer) (hostPtr : ℕ) (mirror : Mem) : Action := fun h =>
  match h.mapped buf.id with
  | .none => (.invalidValue, h)
  | some m =>
    if hostPtr ≠ m.hostMirror then (.invalidValue, h)
    else
      let r := if m.flags &&& vxMemWrite ≠ 0
        then dev.devWrite (add64 buf.devAddr m.off) (some mirror) m.size h else (.success, h)
      (r.1, { r.2 with mapped := Function.update r.2.mapped buf.id .none })

def thenRelease (a : Action) (os : List Obj) (h : Host) : Option VxResult × Host :=
  (some (a h).1, (a h).2.releaseAll os)

/-- Runs a closure. `fuel` bounds the loop of a fill; no result means that it goes on. -/
def run (fuel : ℕ) : Work → Host → Option VxResult × Host
  | .write dst off host sz =>
    thenRelease (dev.cpSubmitMemWrite (add64 dst.devAddr off) host sz false) [dst.obj]
  | .read host src so sz =>
    thenRelease (dev.cpSubmitMemRead host (add64 src.devAddr so) sz false) [src.obj]
  | .copy dst dOff src so sz =>
    thenRelease (dev.cpSubmitMemCopy (add64 dst.devAddr dOff) (add64 src.devAddr so) sz)
      [src.obj, dst.obj]
  | .launch l => fun h => (some (launchWork dev l h).1, (launchWork dev l h).2)
  | .commands recs => fun h => (some (commandsWork dev recs h).1, (commandsWork dev recs h).2)
  | .draw recs => fun h => (some (drawWork dev recs h).1, (drawWork dev recs h).2)
  | .barrier => fun h => (some .success, h)
  | .readRect src rr =>
    thenRelease (runAll (fun r => dev.devRead true (add64 src.devAddr r.1) r.2.2) (rectRows rr))
      [src.obj]
  | .writeRect dst host rr =>
    thenRelease
      (runAll (fun r => dev.devWrite (add64 dst.devAddr r.1) (some fun i => host (r.2.1 + i)) r.2.2)
      (rectRows rr)) [dst.obj]
  | .copyRect dst src rr =>
    thenRelease
      (runAll (fun r => dev.devCopy (add64 dst.devAddr r.1) (add64 src.devAddr r.2.1) r.2.2)
      (rectRows rr)) [src.obj, dst.obj]
  | .fill dst offset size pat => fun h =>
    let r := fillLoop dev (add64 dst.devAddr offset) (fillChunk size pat.length) size
      (fun i => pat.getD (i % pat.length) 0) fuel 0 h
    (r.1, if r.1 = .none then r.2 else r.2.release dst.obj)
  | .map buf => thenRelease (mapCommit dev buf) [buf.obj]
  | .unmap buf hostPtr mirror => thenRelease (bufferUnmap dev buf hostPtr mirror) [buf.obj]
  | .dcrWrite addr value => thenRelease (dev.cpSubmitDcrWrite addr value) []
  | .dcrRead addr => thenRelease (dev.cpSubmitDcrRead addr 0) []
  | .signal ev value =>
    fun h => (some .success, (h.notify dev (.signal ev value)).release (.event ev))
  | .waitValue ev value => thenRelease (perform dev (.waitValue ev value)) [.event ev]

end Work

end VortexGpu.Api

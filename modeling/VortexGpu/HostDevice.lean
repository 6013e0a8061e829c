import VortexGpu.CmdDecode
import VortexGpu.Word

/-!
# The device as the host runtime calls it

The runtime counts references to its objects and reaches everything else through calls: to the
platform for memory the command processor can see, to the ring, to the pool of argument slots.
A host keeps the list of the calls it has made, and a device is what answers them; an answer may
depend on the whole list, so nothing is assumed about when a call fails.
-/

namespace VortexGpu.Api
open Word ByteMem Cp

inductive VxResult where
  | success
  | invalidHandle
  | invalidInfo
  | invalidValue
  | outOfHostMemory
  | outOfDeviceMemory
  | deviceLost
  | timeout
  | eventFailed
  | notSupported
  | internal
deriving DecidableEq, Repr

inductive Obj where
  | event (id : ℕ)
  | buffer (id : ℕ)
  | kernel (id : ℕ)
deriving DecidableEq, Repr

inductive Cap where
  | numThreads
  | numWarps
  | numCores
deriving DecidableEq, Repr

inductive Effect where
  | hostMemAlloc (size : ℕ)
  | hostMemStore (cpAddr : ℕ) (bytes : List UInt8)
  | hostMemFree (cpAddr : ℕ)
  | submitCl (cl : Mem)
  | readInBatch
  | batchBegin
  | batchEnd
  | drainCout
  | readDcrRsp
  | queryCaps (cap : Cap)
  | argsSlotAcquire (size : ℕ)
  | argsSlotRelease (addr : ℕ) (pooled : Bool)
  | malloc (size : ℕ)
  | signal (event value : ℕ)
  | waitValue (event value : ℕ)
  | complete (event : ℕ) (status : VxResult)

structure Reply where
  result : VxResult
  value : ℕ
  flag : Bool
deriving DecidableEq, Repr

/-- What answers the calls, with the capabilities read when the device is opened and, under
virtual memory, the base and size of the pinned slab. -/
structure Device where
  replies : List Effect → Reply
  supportsQmd : Bool
  supportsDraw : Bool
  pinned : Option (ℕ × ℕ)

structure Mapping where
  hostMirror : ℕ
  off : ℕ
  size : ℕ
  flags : ℕ
deriving DecidableEq, Repr

/-- `numCores` is the count that the first cache flush stores. -/
structure Host where
  refs : Obj → BitVec 32
  nextEvent : ℕ
  mapped : ℕ → Option Mapping
  numCores : ℕ
  effects : List Effect

abbrev Action := Host → VxResult × Host

namespace Host

def retain (h : Host) (o : Obj) : Host := { h with refs := Function.update h.refs o (h.refs o + 1) }

def release (h : Host) (o : Obj) : Host :=
  { h with refs := Function.update h.refs o (h.refs o - 1) }

def perform (dev : Device) (e : Effect) (h : Host) : Reply × Host :=
  (dev.replies (h.effects ++ [e]), { h with effects := h.effects ++ [e] })

def notify (dev : Device) (e : Effect) (h : Host) : Host := (h.perform dev e).2

end Host

namespace Action

def ok : Action := fun h => (.success, h)

def fails (r : VxResult) : Action := fun h => (r, h)

def perform (dev : Device) (e : Effect) : Action :=
  fun h => ((h.perform dev e).1.result, (h.perform dev e).2)

def andThen (a b : Action) : Action := fun h => if (a h).1 = .success then b (a h).2 else a h

def runAll {α : Type} (step : α → Action) : List α → Action
  | [] => ok
  | a :: as => andThen (step a) (runAll step as)

end Action

namespace Device
open Api.Action

def lineHeader (opcode flags : ℕ) : Mem :=
  writeBytes (fun _ => 0) 0 [UInt8.ofNat opcode, UInt8.ofNat flags]

def cmdLine (opcode flags arg0 arg1 arg2 : ℕ) : Mem :=
  writeBytes (writeBytes (writeBytes (lineHeader opcode flags) 4 (bytesLE 8 arg0))
    12 (bytesLE 8 arg1)) 20 (bytesLE 8 arg2)

def memFlagPhysical : ℕ := 0x04

def opMemWrite : ℕ := 0x01
def opMemRead : ℕ := 0x02
def opMemCopy : ℕ := 0x03
def opDcrWrite : ℕ := 0x04
def opDcrRead : ℕ := 0x05
def opLaunch : ℕ := 0x06
def opCacheFlush : ℕ := 0x0A
def opLaunchQmd : ℕ := 0x0B
def opDraw : ℕ := 0x0C

variable (dev : Device)

def cpSubmitCl (cl : Mem) : Action := perform dev (.submitCl cl)

def cpSubmitMem (opcode arg0 arg1 arg2 : ℕ) (physical : Bool) : Action :=
  dev.cpSubmitCl (cmdLine opcode (if physical then memFlagPhysical else 0) arg0 arg1 arg2)

def cpSubmitMemCopy (dst src size : ℕ) : Action :=
  if size = 0 ∨ dst = src then ok else dev.cpSubmitMem opMemCopy dst src size false

/-- A staging area in memory the command processor can see, for the time of `use`. -/
def withStaging (size : ℕ) (use : ℕ → Action) : Action := fun h =>
  let r := (h.perform dev (.hostMemAlloc size)).1
  let h := (h.perform dev (.hostMemAlloc size)).2
  if r.result ≠ .success then (r.result, h)
  else ((use r.value h).1, (use r.value h).2.notify dev (.hostMemFree r.value))

def cpSubmitMemWrite (devDst : ℕ) (hostSrc : Option Mem) (size : ℕ) (physical : Bool) :
    Action :=
  if size = 0 then ok
  else match hostSrc with
    | none => fails .invalidValue
    | some src => dev.withStaging size fun cpAddr h =>
        dev.cpSubmitMem opMemWrite devDst cpAddr size physical
          (h.notify dev (.hostMemStore cpAddr (readBytes src 0 size)))

/-- `hostDst` says whether there is a destination; what arrives there is not kept. -/
def cpSubmitMemRead (hostDst : Bool) (devSrc size : ℕ) (physical : Bool) : Action :=
  if size = 0 then ok
  else if hostDst = false then fails .invalidValue
  else dev.withStaging size fun cpAddr => dev.cpSubmitMem opMemRead cpAddr devSrc size physical

def devWrite (devAddr : ℕ) (src : Option Mem) (size : ℕ) : Action :=
  dev.cpSubmitMemWrite devAddr src size false

def devRead (dst : Bool) (devAddr size : ℕ) : Action := dev.cpSubmitMemRead dst devAddr size false

def devCopy (dst src size : ℕ) : Action := dev.cpSubmitMemCopy dst src size

def dcrTexAddr : ℕ := 0x041
def dcrRasterTbufAddr : ℕ := 0x060
def dcrRasterPbufAddr : ℕ := 0x062
def dcrOmCbufAddr : ℕ := 0x080
def dcrOmZbufAddr : ℕ := 0x083

/-- Under virtual memory the address registers of the fixed-function units take block indices
of the pinned slab only. -/
def dcrRefused (addr value : ℕ) : Bool :=
  match dev.pinned with
  | none => false
  | some (base, size) =>
    let pa := value * 2 ^ 6
    decide (addr ∈ [dcrTexAddr, dcrRasterTbufAddr, dcrRasterPbufAddr, dcrOmCbufAddr,
      dcrOmZbufAddr]) &&
      decide (pa < base ∨ add64 base size ≤ pa)

def cpSubmitDcrWrite (addr value : ℕ) : Action :=
  if dev.dcrRefused addr value then fails .invalidValue
  else dev.cpSubmitCl (cmdLine opDcrWrite 0 addr value 0)

def cpSubmitDcrRead (addr tag : ℕ) : Action :=
  andThen (dev.cpSubmitCl (cmdLine opDcrRead 0 addr tag 0)) (perform dev .readDcrRsp)

def cpSubmitCacheFlush : Action := fun h =>
  if h.numCores = 0 then
    let r := (h.perform dev (.queryCaps .numCores)).1
    let h := (h.perform dev (.queryCaps .numCores)).2
    if r.result ≠ .success then (r.result, h)
    else dev.cpSubmitCl (cmdLine opCacheFlush 0 r.value 0 0) { h with numCores := r.value }
  else dev.cpSubmitCl (cmdLine opCacheFlush 0 h.numCores 0 0) h

def drainUnlessBatch : Action := fun h =>
  let r := (h.perform dev .readInBatch).1
  let h := (h.perform dev .readInBatch).2
  if r.flag then (.success, h) else perform dev .drainCout h

def cpSubmitLaunch : Action :=
  andThen (dev.cpSubmitCl (cmdLine opLaunch 0 0 0 0))
    (andThen dev.cpSubmitCacheFlush dev.drainUnlessBatch)

def cpSubmitLaunchQmd (qmdAddr : ℕ) : Action :=
  andThen (dev.cpSubmitCl (cmdLine opLaunchQmd 0 qmdAddr 0 0))
    (andThen dev.cpSubmitCacheFlush dev.drainUnlessBatch)

def cpSubmitDraw (descAddr : ℕ) : Action :=
  andThen (dev.cpSubmitCl (cmdLine opDraw 0 descAddr 0 0)) dev.drainUnlessBatch

def argsSlotRelease (addr : ℕ) (pooled : Bool) (h : Host) : Host :=
  h.notify dev (.argsSlotRelease addr pooled)

end Device

end VortexGpu.Api

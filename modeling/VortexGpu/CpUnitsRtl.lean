import VortexGpu.CpFetchRtl
import VortexGpu.SharedUnit

/-!
# The units the engines of the command processor share

Launch, register proxy, copy engine and event unit, each as a function of one clock: the command it
is granted, if any, and the pins of the GPU and of the memory ports. All of them look at the grant
in their idle state only.
-/

namespace VortexGpu.Rtl
open SharedUnit

inductive Port where
  | host
  | dev
  | event
deriving DecidableEq, Repr

structure AxiIn where
  arready : Bool
  rvalid : Bool
  rdata : ℕ
  awready : Bool
  wready : Bool
  bvalid : Bool

structure UnitIn where
  gpuBusy : Bool
  dcrRspValid : Bool
  dcrRspData : ℕ
  axi : Port → AxiIn

/-- What happens on the pins of a unit: the kernel is started, seen busy and seen drained; a request
and a response of the device registers; the handshakes of a memory port. -/
inductive BusOp where
  | start
  | busy
  | drained
  | dcrReq (rw : Bool) (addr data : ℕ)
  | dcrRsp (data : ℕ)
  | ar (port : Port) (addr beats : ℕ)
  | r (data : ℕ)
  | aw (port : Port) (addr beats : ℕ)
  | w (data : ℕ)
  | b
deriving DecidableEq, Repr

inductive VxLaunch where
  | idle
  | pulseStart
  | waitBusy
  | waitDrain
deriving DecidableEq, Repr

def VxLaunch.clock (s : VxLaunch) (grant : Option CpCmd) (i : UnitIn) :
    VxLaunch × List BusOp × Bool :=
  match s with
  | .idle => (if grant.isSome then .pulseStart else .idle, [], false)
  | .pulseStart => (.waitBusy, [.start], false)
  | .waitBusy => if i.gpuBusy then (.waitDrain, [.busy], false) else (.waitBusy, [], false)
  | .waitDrain => if i.gpuBusy then (.waitDrain, [], false) else (.idle, [.drained], true)

def dcrAddrBits : ℕ := 12
def dcrDataBits : ℕ := 32
def baseCacheFlush : ℕ := 0

inductive DcrState where
  | idle
  | req
  | waitRsp
  | done
deriving DecidableEq, Repr

structure VxDcrProxy where
  state : DcrState
  isRead : Bool
  isFlush : Bool
  addr : ℕ
  data : ℕ
  rspData : ℕ
  flushTotal : ℕ
  flushCid : ℕ

namespace VxDcrProxy

def reset : VxDcrProxy := ⟨.idle, false, false, 0, 0, 0, 0, 0⟩

def capture (s : VxDcrProxy) (c : CpCmd) : VxDcrProxy :=
  let isFlush := CpOpcode.ofByte c.opcode == some .cacheFlush
  let s := { s with
    isRead := CpOpcode.ofByte c.opcode == some .dcrRead
    isFlush := isFlush
    addr := c.arg0 % 2 ^ dcrAddrBits
    data := c.arg1 % 2 ^ dcrDataBits
    state := .req }
  if isFlush then
    let total := c.arg0 % 2 ^ 16
    { s with flushTotal := total, flushCid := 0, state := if total = 0 then .done else .req }
  else s

def request (s : VxDcrProxy) : BusOp :=
  if s.isFlush then .dcrReq false baseCacheFlush s.flushCid else .dcrReq (!s.isRead) s.addr s.data

def clock (s : VxDcrProxy) (grant : Option CpCmd) (i : UnitIn) : VxDcrProxy × List BusOp × Bool :=
  match s.state with
  | .idle => match grant with
    | none => (s, [], false)
    | some c => (s.capture c, [], false)
  | .req => ({ s with state := if s.isRead || s.isFlush then .waitRsp else .done },
    [s.request], false)
  | .waitRsp =>
    if i.dcrRspValid then
      let s' := { s with rspData := i.dcrRspData }
      if s.isFlush ∧ (s.flushCid + 1) % 2 ^ 16 < s.flushTotal then
        ({ s' with flushCid := (s.flushCid + 1) % 2 ^ 16, state := .req },
          [.dcrRsp i.dcrRspData], false)
      else ({ s' with state := .done }, [.dcrRsp i.dcrRspData], false)
    else (s, [], false)
  | .done => ({ s with state := .idle }, [], true)

end VxDcrProxy

inductive DmaState where
  | idle
  | setup
  | reqAr
  | read
  | reqAw
  | write
  | waitB
  | done
deriving DecidableEq, Repr

structure VxDma where
  state : DmaState
  op : ℕ
  dst : ℕ
  src : ℕ
  remBeats : ℕ
  chunkBeats : ℕ
  beatIdx : ℕ
  buf : ℕ → ℕ

def beatsTo4k (addr : ℕ) : ℕ := 64 - addr / 64 % 64

def nextChunk (src dst remBeats : ℕ) : ℕ := min remBeats (min (beatsTo4k src) (beatsTo4k dst))

def readPort (op : ℕ) : Port := if CpOpcode.ofByte op = some .memWrite then .host else .dev

def writePort (op : ℕ) : Port := if CpOpcode.ofByte op = some .memRead then .host else .dev

namespace VxDma

def reset : VxDma := ⟨.idle, 0, 0, 0, 0, 0, 0, fun _ => 0⟩

def lastBeat (s : VxDma) : Bool := s.beatIdx == (s.chunkBeats + 2 ^ 7 - 1) % 2 ^ 7

def advance (s : VxDma) : VxDma :=
  { s with
    src := (s.src + 64 * s.chunkBeats) % 2 ^ 64
    dst := (s.dst + 64 * s.chunkBeats) % 2 ^ 64
    remBeats := (s.remBeats + 2 ^ 64 - s.chunkBeats) % 2 ^ 64
    state := .setup }

def clock (s : VxDma) (grant : Option CpCmd) (i : UnitIn) : VxDma × List BusOp × Bool :=
  match s.state with
  | .idle => match grant with
    | none => (s, [], false)
    | some c => ({ s with
        op := c.opcode
        dst := c.arg0
        src := c.arg1
        remBeats := (c.arg2 + 63) % 2 ^ 64 / 64
        state := .setup }, [], false)
  | .setup =>
    if s.remBeats = 0 then ({ s with state := .done }, [], false)
    else ({ s with chunkBeats := nextChunk s.src s.dst s.remBeats, beatIdx := 0, state := .reqAr },
      [], false)
  | .reqAr =>
    if (i.axi (readPort s.op)).arready then
      ({ s with beatIdx := 0, state := .read }, [.ar (readPort s.op) s.src s.chunkBeats], false)
    else (s, [], false)
  | .read =>
    if (i.axi (readPort s.op)).rvalid then
      let data := (i.axi (readPort s.op)).rdata
      let s' := { s with buf := Function.update s.buf s.beatIdx data }
      if s.lastBeat then ({ s' with beatIdx := 0, state := .reqAw }, [.r data], false)
      else ({ s' with beatIdx := (s.beatIdx + 1) % 2 ^ 6 }, [.r data], false)
    else (s, [], false)
  | .reqAw =>
    if (i.axi (writePort s.op)).awready then
      ({ s with beatIdx := 0, state := .write }, [.aw (writePort s.op) s.dst s.chunkBeats], false)
    else (s, [], false)
  | .write =>
    if (i.axi (writePort s.op)).wready then
      if s.lastBeat then ({ s with state := .waitB }, [.w (s.buf s.beatIdx)], false)
      else ({ s with beatIdx := (s.beatIdx + 1) % 2 ^ 6 }, [.w (s.buf s.beatIdx)], false)
    else (s, [], false)
  | .waitB =>
    if (i.axi (writePort s.op)).bvalid then
      (s.advance, [.b], false)
    else (s, [], false)
  | .done => ({ s with state := .idle }, [], true)

end VxDma

inductive EventFsm where
  | idle
  | reqAw
  | reqW
  | waitB
  | reqAr
  | waitR
  | done
deriving DecidableEq, Repr

structure VxEventUnit where
  state : EventFsm
  addr : ℕ
  value : ℕ
  waitOp : ℕ

def waitMatch (waitOp read value : ℕ) : Bool :=
  match waitOp with
  | 0 => read == value
  | 1 => value ≤ read
  | 2 => value < read
  | 3 => read != value
  | _ => false

namespace VxEventUnit

def reset : VxEventUnit := ⟨.idle, 0, 0, 0⟩

def clock (s : VxEventUnit) (grant : Option CpCmd) (i : UnitIn) :
    VxEventUnit × List BusOp × Bool :=
  match s.state with
  | .idle => match grant with
    | none => (s, [], false)
    | some c => ({ s with
        addr := c.arg0
        value := c.arg1
        waitOp := c.arg2 % 4
        state := if CpOpcode.ofByte c.opcode = some .eventSignal then .reqAw else .reqAr },
        [], false)
  | .reqAw =>
    if (i.axi .event).awready then ({ s with state := .reqW }, [.aw .event s.addr 1], false)
    else (s, [], false)
  | .reqW =>
    if (i.axi .event).wready then ({ s with state := .waitB }, [.w s.value], false)
    else (s, [], false)
  | .waitB =>
    if (i.axi .event).bvalid then ({ s with state := .done }, [.b], false) else (s, [], false)
  | .reqAr =>
    if (i.axi .event).arready then ({ s with state := .waitR }, [.ar .event s.addr 1], false)
    else (s, [], false)
  | .waitR =>
    if (i.axi .event).rvalid then
      let read := (i.axi .event).rdata % 2 ^ 64
      ({ s with state := if waitMatch s.waitOp read s.value then .done else .reqAr },
        [.r read], false)
    else (s, [], false)
  | .done => ({ s with state := .idle }, [], true)

end VxEventUnit

end VortexGpu.Rtl

import VortexGpu.Barrier
import Mathlib.Data.Nat.Log

/-!
# The barrier unit in hardware

The warp control unit registers a request for the barrier unit; the address of the barrier goes
ahead of it by a clock, so that the stored state is there when the request is. A clock has at most
one request, an instruction or the end of a transaction. The requests here are those of local
barriers, and the bus of the global barriers is quiet.
-/

namespace VortexGpu.Rtl
open Simx (WarpMask BarTrace BarInstr BarrierConfig)

/-- `ngcWidth` is the width of the number of a core in the device. -/
class BarConfig extends BarrierConfig where
  ngcWidth : ℕ
  maxBarEvents : ℕ

open Simx.BarrierConfig

namespace BarConfig
variable [BarConfig]

def nwBits : ℕ := Nat.clog 2 numWarps
def nbBits : ℕ := Nat.clog 2 numBarriers
def nwWidth : ℕ := max 1 nwBits
def cntWidth : ℕ := max nwWidth ngcWidth
def eventWidth : ℕ := Nat.clog 2 (maxBarEvents + 1)
def barSizeW : ℕ := max (max nwWidth ngcWidth) (Nat.clog 2 maxBarEvents)

def barAddr (raw : ℕ) : ℕ := raw % 2 ^ nwBits * 2 ^ nbBits + (raw >>> 8) % 2 ^ nbBits

end BarConfig

structure BarReq where
  wid : ℕ
  isEvent : Bool
  isArrive : Bool
  isSync : Bool
  phase : Bool
  sizeM1 : ℕ
deriving DecidableEq

structure BarRow where
  mask : WarpMask
  count : ℕ
  events : ℕ
deriving DecidableEq

/-- `unlock` has no mask when `unlock_valid` is not set. -/
structure BarUnit where
  req : Option BarReq
  waddr : ℕ
  phaseR : Bool
  states : ℕ → BarRow
  phases : ℕ → Bool
  valids : ℕ → Bool
  unlock : Option WarpMask

/-- What is at the warp control unit in a clock: an instruction, the end of a transaction (with the
id of its barrier), and the address on its bus when there is neither. -/
structure BarIn where
  exec : Option BarTrace
  txbar : Option ℕ
  addr : ℕ
deriving DecidableEq

open BarConfig
variable [BarConfig]

def BarReq.ofTrace (a : BarTrace) : BarReq :=
  let isBarArrive := decide (a.instr = .barArrive)
  let isSyncBar := decide (a.instr = .bar)
  let isTxExpect := isBarArrive && a.arg2.testBit 31
  { wid := a.wid
    isEvent := isTxExpect
    isArrive := (isBarArrive && !a.arg2.testBit 31) || isSyncBar
    isSync := isSyncBar
    phase := isTxExpect || a.arg2.testBit 0
    sizeM1 := (a.arg2 % 2 ^ barSizeW + (2 ^ barSizeW - 1)) % 2 ^ barSizeW }

def BarReq.release : BarReq := ⟨0, true, false, false, false, 0⟩

namespace BarIn

def req (i : BarIn) : Option BarReq :=
  match i.exec, i.txbar with
  | some a, _ => some (.ofTrace a)
  | none, some _ => some .release
  | none, none => none

def readAddr (i : BarIn) : ℕ :=
  match i.exec, i.txbar with
  | some a, _ => barAddr a.arg1
  | none, some raw => barAddr raw
  | none, none => i.addr

end BarIn

def BarReq.serve (q : BarReq) (r : BarRow) (phaseR : Bool) : BarRow × Bool × Option WarpMask :=
  let waitMask := insert q.wid r.mask
  let nextPhase := !phaseR
  if q.isEvent then
    let events := if q.phase then (r.events + q.sizeM1 + 1) % 2 ^ eventWidth
      else (r.events + (2 ^ eventWidth - 1)) % 2 ^ eventWidth
    if q.phase = false ∧ r.events = 1 % 2 ^ eventWidth ∧ r.count = 0 then
      (⟨∅, r.count, events⟩, nextPhase, some r.mask)
    else (⟨r.mask, r.count, events⟩, phaseR, none)
  else if q.isArrive then
    if r.count = q.sizeM1 % 2 ^ cntWidth then
      if r.events = 0 then (⟨∅, 0, r.events⟩, nextPhase,
        some (if q.isSync then waitMask else r.mask))
      else (⟨if q.isSync then waitMask else r.mask, 0, r.events⟩, phaseR, none)
    else (⟨if q.isSync then waitMask else r.mask, (r.count + 1) % 2 ^ cntWidth, r.events⟩,
      phaseR, none)
  else if q.phase ≠ phaseR then (r, phaseR, some {q.wid})
  else (⟨waitMask, r.count, r.events⟩, phaseR, none)

namespace BarUnit
variable (s : BarUnit)

def reset (states : ℕ → BarRow) (phases : ℕ → Bool) (waddr : ℕ) : BarUnit :=
  ⟨none, waddr, false, states, phases, fun _ => false, none⟩

def row (addr : ℕ) : BarRow := if s.valids addr then s.states addr else ⟨∅, 0, 0⟩

def storedPhase (addr : ℕ) : Bool := if s.valids addr then s.phases addr else false

def served : Option (BarRow × Bool × Option WarpMask) :=
  s.req.map fun q => q.serve (s.row s.waddr) s.phaseR

def readPhase (addr : ℕ) : Bool :=
  match s.served with
  | some r => if s.waddr = addr then r.2.1 else s.storedPhase addr
  | none => s.storedPhase addr

def clock (i : BarIn) : BarUnit :=
  let raddr := i.readAddr
  match s.served with
  | some (row, phase, unlock) =>
    { req := i.req
      waddr := raddr
      phaseR := phase
      states := Function.update s.states s.waddr row
      phases := Function.update s.phases s.waddr phase
      valids := Function.update s.valids s.waddr true
      unlock := unlock }
  | none => { s with req := i.req, waddr := raddr, phaseR := s.storedPhase raddr, unlock := none }

end BarUnit

end VortexGpu.Rtl

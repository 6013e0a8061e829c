import VortexGpu.CmdDecode
import VortexGpu.PageTable

/-!
# The command processor

A fetch stage that reads one cache line of the ring at a time, an engine that walks each command of
the line through its states, and a launch machine that starts the device and waits until it has been
busy and is idle again.

Reads appear in the log as the memory they saw: `fetch` for a line of the ring, `view` for what a
command reads. `none` is the failed assertion of an address out of range.
-/

namespace VortexGpu.Cp
open ByteMem Word Vm

/-- The address mode of a build with virtual memory. -/
class VmBuild where
  vm : Option AddrMode

abbrev noVm : VmBuild := ⟨none⟩

open VmBuild

inductive EngState where
  | idle
  | decode
  | bid
  | waitDone
  | retire
  | drawStep
  | drawLaunchWait
deriving DecidableEq, Repr

inductive LaunchState where
  | idle
  | pulseStart
  | waitBusy
  | waitDrain
deriving DecidableEq, Repr

inductive HookCall where
  | fetch (addr : ℕ) (mem : Mem)
  | view (mem : Mem)
  | store (addr : ℕ) (bytes : List UInt8)
  | dcrWrite (addr value : ℕ)
  | dcrRead (addr tag : ℕ)
  | start
  | busy (b : Bool)

structure Queue where
  ringBase : ℕ
  headAddr : ℕ
  cmplAddr : ℕ
  ringLog2 : ℕ
  control : ℕ
  tail : ℕ
  tailLoStaging : ℕ
  head : ℕ
  seqnum : ℕ
deriving DecidableEq, Repr

structure CommandProcessor where
  cpCtrl : ℕ
  satp : ℕ
  cycleCounter : ℕ
  q0 : Queue
  lastDcrRsp : ℕ
  engState : EngState
  launchState : LaunchState
  curCmd : Cmd
  curIsLaunch : Bool
  curIsNoResource : Bool
  drawPhys : ℕ
  drawNumSteps : ℕ
  drawStep : ℕ
  drawCmd : Cmd
  clBuf : Mem
  clCmdCount : ℕ
  clCmdSlot : ℕ
  clLoaded : Bool
  dram : Mem
  calls : List HookCall

def drawStepBytes : ℕ := 28
def maxDrawSteps : ℕ := 256
def maxQmdDcrs : ℕ := 64
def dcrBaseCacheFlush : ℕ := 0
def copyChunk : ℕ := 64 * 1024

variable [VmBuild]

def translate (satp : ℕ) (mem : Mem) (vaddr : ℕ) (physical : Bool) : Option ℕ :=
  match vm with
  | none => some vaddr
  | some m => cpTranslate m mem satp vaddr physical

omit [VmBuild] in
@[simp] theorem translate_noVm (satp : ℕ) (mem : Mem) (vaddr : ℕ) (physical : Bool) :
    @translate noVm satp mem vaddr physical = some vaddr := rfl

def eventWaitSatisfied (mem : Mem) (c : Cmd) : Bool :=
  let cur := readLE mem c.arg0 8
  match c.arg2 % 4 with
  | 0 => cur == c.arg1
  | 1 => decide (c.arg1 ≤ cur)
  | 2 => decide (c.arg1 < cur)
  | _ => cur != c.arg1

def qmdWrites (mem : Mem) : ℕ → ℕ → List HookCall
  | 0, _ => []
  | count + 1, addr =>
    .dcrWrite (readLE mem addr 4 % 2 ^ 12) (readLE mem (addr + 4) 4) ::
      qmdWrites mem count (add64 addr 8)

def qmdCalls (mem : Mem) (addr : ℕ) : List HookCall :=
  qmdWrites mem (min (readLE mem addr 4) maxQmdDcrs) (add64 addr 4)

def flushReads (n : ℕ) : List HookCall :=
  (List.range n).map (HookCall.dcrRead dcrBaseCacheFlush)

def copyStep (dst src total : ℕ) (r : Mem × List HookCall) (i : ℕ) : Mem × List HookCall :=
  let done := i * copyChunk
  let bytes := readBytes r.1 (add64 src done) (min (total - done) copyChunk)
  (writeBytes r.1 (add64 dst done) bytes, r.2 ++ [.store (add64 dst done) bytes])

def copied (mem : Mem) (dst src total : ℕ) : Mem × List HookCall :=
  (List.range ((total + copyChunk - 1) / copyChunk)).foldl (copyStep dst src total) (mem, [])

def memDst (satp : ℕ) (mem : Mem) (c : Cmd) : Option ℕ :=
  if c.op = .memRead then some c.arg0 else translate satp mem c.arg0 (c.flags.testBit 2)

def memSrc (satp : ℕ) (mem : Mem) (c : Cmd) : Option ℕ :=
  if c.op = .memWrite then some c.arg1 else translate satp mem c.arg1 (c.flags.testBit 2)

def drawStepCmd (mem : Mem) (phys step : ℕ) : Cmd :=
  decodeCmdBytes (window mem (add64 (add64 phys 4) (step * drawStepBytes)) drawStepBytes) 0

def Queue.ringAddr (q : Queue) (head : ℕ) : ℕ :=
  add64 q.ringBase (head &&& sub64 (shl64 1 q.ringLog2) 1)

namespace CommandProcessor

def log (s : CommandProcessor) (cs : List HookCall) : CommandProcessor :=
  { s with calls := s.calls ++ cs }

def dramWrite (s : CommandProcessor) (addr : ℕ) (bytes : List UInt8) : CommandProcessor :=
  { s.log [.store addr bytes] with dram := writeBytes s.dram addr bytes }

def enabled (s : CommandProcessor) : Bool := s.cpCtrl.testBit 0 && s.q0.control.testBit 0

def setLo (reg value : ℕ) : ℕ := reg / 2 ^ 32 * 2 ^ 32 + value
def setHi (reg value : ℕ) : ℕ := value * 2 ^ 32 + reg % 2 ^ 32

section
variable (s : CommandProcessor)

def mmioWrite (off value : ℕ) : CommandProcessor :=
  match off with
  | 0x000 => { s with cpCtrl := value }
  | 0x028 => { s with satp := setLo s.satp value }
  | 0x02C => { s with satp := setHi s.satp value }
  | 0x100 => { s with q0 := { s.q0 with ringBase := setLo s.q0.ringBase value } }
  | 0x104 => { s with q0 := { s.q0 with ringBase := setHi s.q0.ringBase value } }
  | 0x108 => { s with q0 := { s.q0 with headAddr := setLo s.q0.headAddr value } }
  | 0x10C => { s with q0 := { s.q0 with headAddr := setHi s.q0.headAddr value } }
  | 0x110 => { s with q0 := { s.q0 with cmplAddr := setLo s.q0.cmplAddr value } }
  | 0x114 => { s with q0 := { s.q0 with cmplAddr := setHi s.q0.cmplAddr value } }
  | 0x118 => { s with q0 := { s.q0 with ringLog2 := value % 256 } }
  | 0x11C => { s with q0 := { s.q0 with control := value } }
  | 0x120 => { s with q0 := { s.q0 with tailLoStaging := value } }
  | 0x124 => { s with q0 := { s.q0 with tail := value * 2 ^ 32 + s.q0.tailLoStaging } }
  | _ => s

def fetchIfNeeded : CommandProcessor :=
  if s.clLoaded then s
  else if s.q0.tail ≤ s.q0.head then s
  else
    let addr := s.q0.ringAddr s.q0.head
    let buf := window s.dram addr clBytes
    { s.log [.fetch addr s.dram] with
      clBuf := buf, clLoaded := true, clCmdSlot := 0, clCmdCount := unpackCl buf }

def loadNextCmd : CommandProcessor × Bool :=
  if s.clLoaded = false then (s, false)
  else if s.clCmdCount ≤ s.clCmdSlot then
    ({ s with q0 := { s.q0 with head := add64 s.q0.head clBytes }, clLoaded := false }, false)
  else
    let c := slotCmd s.clBuf s.clCmdSlot
    ({ s with curCmd := c, curIsLaunch := c.isLaunch,
              curIsNoResource := c.op == .nop || c.op == .fence }, true)

def publishCompletion : CommandProcessor :=
  if s.q0.cmplAddr = 0 then s else s.dramWrite s.q0.cmplAddr (bytesLE 8 s.q0.seqnum)

end

def applyQmd (s : CommandProcessor) (qmdAddr : ℕ) : Option CommandProcessor := do
  let addr ← translate s.satp s.dram qmdAddr false
  some (s.log (.view s.dram :: qmdCalls s.dram addr))

def startLaunch (s : CommandProcessor) (c : Cmd) : Option CommandProcessor := do
  let s ← if c.op = .launchQmd then s.applyQmd c.arg0 else some s
  some { s with launchState := .pulseStart }

def execDcrRead (s : CommandProcessor) (rsp : ℕ → ℕ → ℕ) (c : Cmd) : CommandProcessor :=
  { s.log [.dcrRead (c.arg0 % 2 ^ 12) (c.arg1 % 2 ^ 32)] with
    lastDcrRsp := rsp (c.arg0 % 2 ^ 12) (c.arg1 % 2 ^ 32) }

def execDcrWrite (s : CommandProcessor) (c : Cmd) : CommandProcessor :=
  s.log [.dcrWrite (c.arg0 % 2 ^ 12) (c.arg1 % 2 ^ 32)]

def execInlineCmd (rsp : ℕ → ℕ → ℕ) (s : CommandProcessor) (c : Cmd) :
    Option (CommandProcessor × Bool) :=
  match c.op with
  | .launch => (s.startLaunch c).map (fun s => (s, true))
  | .launchQmd => (s.startLaunch c).map (fun s => (s, true))
  | .dcrWrite => some (s.execDcrWrite c, false)
  | .dcrRead => some (s.execDcrRead rsp c, false)
  | .cacheFlush => some (s.log (flushReads (c.arg0 % 2 ^ 32)), false)
  | _ => some (s, false)

def execMem (s : CommandProcessor) (c : Cmd) : Option CommandProcessor :=
  if c.arg2 = 0 then some s
  else do
    let dst ← memDst s.satp s.dram c
    let src ← memSrc s.satp s.dram c
    let r := copied s.dram dst src c.arg2
    some { s.log (.view s.dram :: r.2) with dram := r.1 }

def toRetire (s : CommandProcessor) : CommandProcessor := { s with engState := .retire }

def dispatch (rsp : ℕ → ℕ → ℕ) (s : CommandProcessor) (c : Cmd) :
    Option CommandProcessor :=
  match c.op with
  | .draw => do
    let phys ← translate s.satp s.dram c.arg0 false
    some { s.log [.view s.dram] with
      drawPhys := phys, drawNumSteps := min (readLE s.dram phys 4) maxDrawSteps, drawStep := 0,
      engState := .drawStep }
  | .dcrWrite => some (s.execDcrWrite c).toRetire
  | .dcrRead => some (s.execDcrRead rsp c).toRetire
  | .cacheFlush => some (s.log (flushReads (c.arg0 % 2 ^ 32))).toRetire
  | .eventSig => some (s.dramWrite c.arg0 (bytesLE 8 c.arg1)).toRetire
  | .eventWait =>
    -- an unsatisfied wait stays in the bid state and is tried again at the next tick
    if eventWaitSatisfied s.dram c then some (s.log [.view s.dram]).toRetire
    else some (s.log [.view s.dram])
  | .memWrite => (s.execMem c).map toRetire
  | .memRead => (s.execMem c).map toRetire
  | .memCopy => (s.execMem c).map toRetire
  | _ => some s.toRetire

def bid (rsp : ℕ → ℕ → ℕ) (s : CommandProcessor) : Option CommandProcessor :=
  if s.curIsLaunch then (s.startLaunch s.curCmd).map (fun s => { s with engState := .waitDone })
  else s.dispatch rsp s.curCmd

def drawNext (rsp : ℕ → ℕ → ℕ) (s : CommandProcessor) : Option CommandProcessor := do
  let s := { s.log [.view s.dram] with drawCmd := drawStepCmd s.dram s.drawPhys s.drawStep }
  let (s, launched) ← s.execInlineCmd rsp s.drawCmd
  if launched then some { s with engState := .drawLaunchWait }
  else some { s with drawStep := s.drawStep + 1 }

def tickLaunch (busy : Bool) (s : CommandProcessor) : CommandProcessor :=
  match s.launchState with
  | .idle => s
  | .pulseStart => { s.log [.start] with launchState := .waitBusy }
  | .waitBusy =>
    { s.log [.busy busy] with launchState := if busy then .waitDrain else .waitBusy }
  | .waitDrain =>
    { s.log [.busy busy] with launchState := if busy then .waitDrain else .idle }

def tickEngine (rsp : ℕ → ℕ → ℕ) (s : CommandProcessor) : Option CommandProcessor :=
  match s.engState with
  | .idle =>
    let r := s.fetchIfNeeded.loadNextCmd
    if r.2 then some { r.1 with engState := .decode } else some r.1
  | .decode => some { s with engState := if s.curIsNoResource then .retire else .bid }
  | .bid => s.bid rsp
  | .waitDone => if s.curIsLaunch ∧ s.launchState ≠ .idle then some s else some s.toRetire
  | .drawStep => if s.drawNumSteps ≤ s.drawStep then some s.toRetire else s.drawNext rsp
  | .drawLaunchWait =>
    if s.launchState ≠ .idle then some s
    else some { s with drawStep := s.drawStep + 1, engState := .drawStep }
  | .retire =>
    let s := { s with q0 := { s.q0 with seqnum := add64 s.q0.seqnum 1 } }
    some { s.publishCompletion with clCmdSlot := s.clCmdSlot + 1, engState := .idle }

def tick (busy : Bool) (rsp : ℕ → ℕ → ℕ) (s : CommandProcessor) :
    Option CommandProcessor :=
  let s := { s with cycleCounter := add64 s.cycleCounter 1 }
  if s.enabled then (s.tickEngine rsp).map (tickLaunch busy) else some s

end CommandProcessor

def programmed (ctrl satp ringBase headAddr cmplAddr ringLog2 control : ℕ) (mem : Mem) :
    CommandProcessor where
  cpCtrl := ctrl
  satp := satp
  cycleCounter := 0
  q0 := ⟨ringBase, headAddr, cmplAddr, ringLog2, control, 0, 0, 0, 0⟩
  lastDcrRsp := 0
  engState := .idle
  launchState := .idle
  curCmd := Cmd.zero
  curIsLaunch := false
  curIsNoResource := false
  drawPhys := 0
  drawNumSteps := 0
  drawStep := 0
  drawCmd := Cmd.zero
  clBuf := fun _ => 0
  clCmdCount := 0
  clCmdSlot := 0
  clLoaded := false
  dram := mem
  calls := []

end VortexGpu.Cp

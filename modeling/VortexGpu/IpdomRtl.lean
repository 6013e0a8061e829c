import VortexGpu.Divergence
import Mathlib.Data.Nat.Log

/-!
# Warp control in hardware

`SPLIT`, `JOIN` and `PRED` on the way through the hardware: the warp control unit collects the
packets of an instruction and registers the command of the last one, the IPDOM stacks of all warps
share one memory, and the answer sets the thread mask and the program counter of the warp. A failed
assertion has no result.
-/

namespace VortexGpu.Rtl
open Simx (ThreadMask WctlType)
open Function (update)

class WctlConfig where
  numThreads : ℕ
  numWarps : ℕ
  numLanes : ℕ
  xlen : ℕ
  pcShift : ℕ
  numThreads_pos : 0 < numThreads
  numWarps_pos : 0 < numWarps
  xlen_gt : 2 < xlen
  pcShift_le : pcShift ≤ 2

namespace WctlConfig
variable [WctlConfig]

def dvStackSize : ℕ := max 1 (numThreads - 1)
def log2Up (x : ℕ) : ℕ := if 1 < x then Nat.clog 2 x else 1
def dvStackSizeW : ℕ := log2Up dvStackSize
def nwWidth : ℕ := max 1 (Nat.clog 2 numWarps)
def bramSize : ℕ := dvStackSize * numWarps

abbrev Pc : Type := BitVec (xlen - pcShift)
abbrev Mask : Type := ThreadMask numThreads

def toFullPC (pc : Pc) : BitVec xlen := pc.setWidth xlen <<< pcShift
def fromFullPC (pc : BitVec xlen) : Pc := (pc >>> pcShift).setWidth (xlen - pcShift)

def addr (ptr wid : ℕ) : ℕ :=
  if 1 < dvStackSize ∧ 1 < numWarps then
    (ptr * 2 ^ nwWidth + wid) % 2 ^ log2Up bramSize
  else if 1 < dvStackSize then ptr
  else if 1 < numWarps then wid
  else 0

def enabled : Bool := decide (1 < numThreads)

end WctlConfig

open WctlConfig
variable [WctlConfig]

/-- What warp control tells the scheduler: the result of each packet of a `SPLIT`, and the mask
and the program counter with which the warp goes on. -/
inductive WctlEvent where
  | result (stackPtr : ℕ)
  | split (divergent : Bool) (tmask : Mask)
  | join (divergent : Bool) (tmask : Mask) (pc : BitVec xlen)
  | pred (tmask : Mask)
deriving DecidableEq

structure SplitT where
  isDvg : Bool
  thenTmask : Mask
  elseTmask : Mask
  nextPc : Pc

structure JoinT where
  tmask : Mask
  stackPtr : ℕ

structure WctlReg where
  tmcValid : Bool
  splitValid : Bool
  sjoinValid : Bool
  wid : ℕ
  tmc : Mask
  split : SplitT
  sjoin : JoinT

structure JoinReg where
  valid : Bool
  wid : ℕ
  isDvg : Bool
  isElse : Bool
  tmask : Mask
  pc : Pc

structure IpdomCell where
  taken : Bool
  tmask : Mask
  pc : Pc

/-- A packet of an instruction, with the active threads of its lanes. -/
structure ExecPacket where
  wid : ℕ
  type : WctlType
  isCondNeg : Bool
  pc : Pc
  sop : Bool
  eop : Bool
  pid : ℕ
  tmask : Mask
  rs1 : Fin numThreads → ℕ
  rs2 : Fin numThreads → ℕ

/-- `tmaskTable` has the mask of the other side first. -/
structure WarpCtl where
  tmaskTable : ℕ → Mask × Mask
  reg : WctlReg
  wrPtr : ℕ → ℕ
  empty : ℕ → Bool
  full : ℕ → Bool
  ram : ℕ → IpdomCell
  out : JoinReg
  threadMasks : ℕ → Mask
  warpPcs : ℕ → Pc

/-- The instruction the scheduler sends to fetch, and the packet at the unit with whether it is
accepted. -/
structure WctlIn where
  fetch : Option (ℕ × Pc)
  exec : Option (ExecPacket × Bool)

namespace ExecPacket
variable (p : ExecPacket)

def taken (t : Fin numThreads) : Bool := decide (p.rs1 t % 2 = 1) ^^ p.isCondNeg

def lastOf (rs : Fin numThreads → ℕ) : ℕ := (p.tmask.last.map rs).getD 0

end ExecPacket

namespace WarpCtl
variable (s : WarpCtl)

def collect (old : Mask) (p : ExecPacket) (side : Bool) : Mask :=
  (old.filter fun t => t.val / numLanes ≠ p.pid) ∪ p.tmask.filter fun t => p.taken t = side

section
variable (p : ExecPacket)

def thenTmask : Mask :=
  collect (if p.sop then ∅ else (s.tmaskTable p.wid).2) p true

def elseTmask : Mask :=
  collect (if p.sop then ∅ else (s.tmaskTable p.wid).1) p false

def split : SplitT :=
  let thenTmask := s.thenTmask p
  let elseTmask := s.elseTmask p
  let thenFirst := thenTmask.card ≤ elseTmask.card
  { isDvg := decide (thenTmask ≠ ∅) && decide (elseTmask ≠ ∅)
    thenTmask := if thenFirst then thenTmask else elseTmask
    elseTmask := if thenFirst then elseTmask else thenTmask
    nextPc := p.pc + fromFullPC 4 }

def sjoin : JoinT where
  tmask := s.thenTmask p ∪ s.elseTmask p
  stackPtr := p.lastOf p.rs1 % 2 ^ dvStackSizeW

def predMask : Mask :=
  if s.thenTmask p ≠ ∅ then s.thenTmask p else .ofWord (p.lastOf p.rs2)

end

def nextReg : Option (ExecPacket × Bool) → WctlReg
  | none => { s.reg with tmcValid := false, splitValid := false, sjoinValid := false }
  | some (p, fire) =>
    { tmcValid := fire && p.eop && p.type == .pred
      splitValid := fire && p.eop && p.type == .split
      sjoinValid := fire && p.eop && p.type == .join
      wid := p.wid
      tmc := s.predMask p
      split := s.split p
      sjoin := s.sjoin p }

def nextTable : Option (ExecPacket × Bool) → ℕ → Mask × Mask
  | none => s.tmaskTable
  | some (p, _) => update s.tmaskTable p.wid (s.elseTmask p, s.thenTmask p)

def sjoinIsDvg : Bool := enabled && decide (s.reg.sjoin.stackPtr ≠ s.wrPtr s.reg.wid)

def push : Bool := enabled && s.reg.splitValid && s.reg.split.isDvg
def pop : Bool := s.reg.sjoinValid && s.sjoinIsDvg

def top : IpdomCell := s.ram (addr s.reg.sjoin.stackPtr s.reg.wid)

def writeRam (a : ℕ) (c : IpdomCell) : ℕ → IpdomCell :=
  if a < bramSize then update s.ram a c else s.ram

def nextRam : ℕ → IpdomCell :=
  if s.push then
    s.writeRam (addr (s.wrPtr s.reg.wid) s.reg.wid)
      ⟨false, s.reg.split.thenTmask ∪ s.reg.split.elseTmask, s.reg.split.nextPc⟩
  else if s.pop then s.writeRam (addr s.reg.sjoin.stackPtr s.reg.wid) { s.top with taken := true }
  else s.ram

def nextPtr : ℕ → ℕ :=
  let wid := s.reg.wid
  if s.push then update s.wrPtr wid ((s.wrPtr wid + 1) % 2 ^ dvStackSizeW)
  else if s.pop then
    update s.wrPtr wid
      ((s.wrPtr wid + (2 ^ dvStackSizeW - if s.top.taken then 1 else 0)) % 2 ^ dvStackSizeW)
  else s.wrPtr

def nextEmpty : ℕ → Bool :=
  if s.push then update s.empty s.reg.wid false
  else if s.pop then update s.empty s.reg.wid (decide (s.reg.sjoin.stackPtr = 0) && s.top.taken)
  else s.empty

def nextFull : ℕ → Bool :=
  let wid := s.reg.wid
  if s.push then
    update s.full wid (decide ((dvStackSize - 1) % 2 ^ dvStackSizeW = s.wrPtr wid))
  else if s.pop then update s.full wid false
  else s.full

def asserts : Bool :=
  !(s.push && s.full s.reg.wid) && !(s.pop && s.empty s.reg.wid) && !(s.push && s.pop)

def nextOut : JoinReg where
  valid := s.reg.sjoinValid
  wid := s.reg.wid
  isDvg := s.sjoinIsDvg
  isElse := !s.top.taken
  tmask := if s.top.taken then s.top.tmask else s.top.tmask \ s.reg.sjoin.tmask
  pc := s.top.pc

def stackPtr (wid : ℕ) : ℕ := if enabled then s.wrPtr wid else 0

def nextMasks : ℕ → Mask :=
  let masks := if s.reg.tmcValid then update s.threadMasks s.reg.wid s.reg.tmc else s.threadMasks
  let masks :=
    if s.reg.splitValid && s.reg.split.isDvg then update masks s.reg.wid s.reg.split.thenTmask
    else masks
  if s.out.valid && s.out.isDvg then update masks s.out.wid s.out.tmask else masks

def nextPcs (fetch : Option (ℕ × Pc)) : ℕ → Pc :=
  let pcs := if s.out.valid && s.out.isDvg && s.out.isElse then update s.warpPcs s.out.wid s.out.pc
    else s.warpPcs
  match fetch with
  | none => pcs
  | some (wid, pc) => update pcs wid (pc + fromFullPC 4)

/-- A packet of a `SPLIT` that is accepted gets the stack pointer. -/
def results : Option (ExecPacket × Bool) → List (ℕ × WctlEvent)
  | some (p, true) => if p.type = .split then [(p.wid, .result (s.stackPtr p.wid))] else []
  | _ => []

def events (i : WctlIn) : List (ℕ × WctlEvent) :=
  (if s.out.valid then
    [(s.out.wid, .join s.out.isDvg (s.nextMasks s.out.wid) (toFullPC (s.nextPcs none s.out.wid)))]
    else []) ++
  (if s.reg.splitValid then [(s.reg.wid, .split s.reg.split.isDvg (s.nextMasks s.reg.wid))]
    else []) ++
  (if s.reg.tmcValid then [(s.reg.wid, .pred (s.nextMasks s.reg.wid))] else []) ++ s.results i.exec

def next (i : WctlIn) : WarpCtl where
  tmaskTable := s.nextTable i.exec
  reg := s.nextReg i.exec
  wrPtr := s.nextPtr
  empty := s.nextEmpty
  full := s.nextFull
  ram := s.nextRam
  out := s.nextOut
  threadMasks := s.nextMasks
  warpPcs := s.nextPcs i.fetch

def clock (i : WctlIn) : Option (WarpCtl × List (ℕ × WctlEvent)) :=
  if s.asserts then some (s.next i, s.events i) else none

end WarpCtl
end VortexGpu.Rtl

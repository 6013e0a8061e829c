import VortexGpu.CmdRing

/-!
# Submission to the command ring

The host side of the ring: any number of threads append cache lines under a lock, one at a time with
a doorbell each, or many with one doorbell at the end of a batch. A thread that finds the batch flag
set appends without taking the lock. A step makes one access to shared state, except that the tail
and the sequence number move together. Nothing in the program reads `appended`, the lines in the
order in which the tail was moved past them, and `mine`, the position of a thread's last line in it.
-/

namespace VortexGpu.Runtime
open ByteMem Word Vm Cp Runs Function

def cpRingSize : ℕ := 64 * 1024
def cpClBytes : ℕ := 64

/-- How a line is appended: alone under the lock, inside the thread's own batch, or by a
thread that saw the flag of another thread's batch. -/
inductive Mode where
  | single
  | batch
  | stray
deriving DecidableEq, Repr

/-- Where a thread is: outside of all calls, between the opening and the end of its batch,
or at a step of one of the calls. -/
inductive Pc where
  | idle
  | batch
  | beginWait
  | beginFlag
  | beginTarget
  | submitWait (cl : Mem)
  | append (mode : Mode) (cl : Mem)
  | copy (mode : Mode) (cl : Mem) (off i : ℕ)
  | setTarget (mode : Mode)
  | endFlag (target : ℕ)
  | tailLo (target : ℕ)
  | tailHi (target : ℕ)
  | unlock (target : ℕ)
  | pollWait (target : ℕ)
  | poll (target : ℕ)

structure Host where
  tail : ℕ
  expectedSeqnum : ℕ
  inBatch : Bool
  batchTarget : ℕ
  owner : Option ℕ
deriving DecidableEq, Repr

structure Device where
  cp : CommandProcessor
  host : Host
  pc : ℕ → Pc
  appended : List Mem
  mine : ℕ → Option ℕ

namespace Device

section
variable (s : Device)

def goto (i : ℕ) (p : Pc) : Device := { s with pc := update s.pc i p }

def withHost (h : Host) : Device := { s with host := h }

def lock (i : ℕ) (p : Pc) : Device :=
  if s.host.owner = none then (s.withHost { s.host with owner := some i }).goto i p else s

def unlock (i : ℕ) (p : Pc) : Device :=
  (s.withHost { s.host with owner := none }).goto i p

def regWrite (off value : ℕ) : Device := { s with cp := s.cp.mmioWrite off value }

def appendFails (i : ℕ) : Mode → Device
  | .single => s.unlock i .idle
  | .batch => s.goto i .batch
  | .stray => s.goto i .idle

def ringOff : ℕ := s.host.tail &&& (cpRingSize - 1)

section
variable (i : ℕ)

def append (mode : Mode) (cl : Mem) : Device :=
  if cpRingSize < s.ringOff + cpClBytes then s.appendFails i mode
  else s.goto i (.copy mode cl s.ringOff 0)

def copyByte (mode : Mode) (cl : Mem) (off n : ℕ) : Device :=
  { s with cp := { s.cp with dram := update s.cp.dram (s.cp.q0.ringBase + off + n) (cl n) } }.goto
    i (.copy mode cl off (n + 1))

def bump (mode : Mode) (cl : Mem) : Device :=
  { s with
    host := { s.host with tail := add64 s.host.tail cpClBytes,
                          expectedSeqnum := add64 s.host.expectedSeqnum 1 },
    appended := s.appended ++ [window cl 0 cpClBytes],
    mine := update s.mine i (some s.appended.length) }.goto i (.setTarget mode)

def setTarget : Mode → Device
  | .single => s.goto i (.tailLo s.host.expectedSeqnum)
  | .batch => (s.withHost { s.host with batchTarget := s.host.expectedSeqnum }).goto i .batch
  | .stray => (s.withHost { s.host with batchTarget := s.host.expectedSeqnum }).goto i .idle

def beginTarget : Device :=
  { s with host := { s.host with batchTarget := s.host.expectedSeqnum },
           mine := update s.mine i none }.goto i .batch

def cpBatchBegin : Device :=
  match s.pc i with
  | .idle => s.goto i .beginWait
  | _ => s

def cpBatchEnd : Device :=
  match s.pc i with
  | .batch => s.goto i (.endFlag s.host.batchTarget)
  | _ => s

def cpSubmitCl (cl : Mem) : Device :=
  match s.pc i with
  | .idle => s.goto i (if s.host.inBatch then .append .stray cl else .submitWait cl)
  | .batch => s.goto i (if s.host.inBatch then .append .batch cl else .submitWait cl)
  | _ => s

end

def pollDone (target : ℕ) : Bool := target ≤ s.cp.q0.seqnum % 2 ^ 32

def go (i : ℕ) : Device :=
  match s.pc i with
  | .idle => s
  | .batch => s
  | .beginWait => s.lock i .beginFlag
  | .beginFlag => (s.withHost { s.host with inBatch := true }).goto i .beginTarget
  | .beginTarget => s.beginTarget i
  | .submitWait cl => s.lock i (.append .single cl)
  | .append mode cl => s.append i mode cl
  | .copy mode cl off n => if n < cpClBytes then s.copyByte i mode cl off n else s.bump i mode cl
  | .setTarget mode => s.setTarget i mode
  | .endFlag target => (s.withHost { s.host with inBatch := false }).goto i (.tailLo target)
  | .tailLo target => (s.regWrite 0x120 (s.host.tail % 2 ^ 32)).goto i (.tailHi target)
  | .tailHi target => (s.regWrite 0x124 (s.host.tail >>> 32)).goto i (.unlock target)
  | .unlock target => s.unlock i (.pollWait target)
  | .pollWait target => s.lock i (.poll target)
  | .poll target =>
    s.unlock i (if s.pollDone target then .idle else .pollWait target)

end

end Device

inductive Action where
  | tick (busy : Bool) (rsp : ℕ → ℕ → ℕ)
  | poke (addr : ℕ) (byte : UInt8)
  | batchBegin (i : ℕ)
  | batchEnd (i : ℕ)
  | submit (i : ℕ) (cl : Mem)
  | go (i : ℕ)

def step [VmBuild] (s : Device) : Action → Option (Device × Unit)
  | .tick busy rsp => (s.cp.tick busy rsp).map (fun cp => ({ s with cp := cp }, ()))
  | .poke addr byte =>
    some ({ s with cp := { s.cp with dram := update s.cp.dram addr byte } }, ())
  | .batchBegin i => some (s.cpBatchBegin i, ())
  | .batchEnd i => some (s.cpBatchEnd i, ())
  | .submit i cl => some (s.cpSubmitCl i cl, ())
  | .go i => some (s.go i, ())

def opened (satp ringBase headAddr cmplAddr : ℕ) (mem : Mem) : Device where
  cp := programmed 1 satp ringBase headAddr cmplAddr 16 1 mem
  host := ⟨0, 0, false, 0, none⟩
  pc := fun _ => .idle
  appended := []
  mine := fun _ => none

end VortexGpu.Runtime

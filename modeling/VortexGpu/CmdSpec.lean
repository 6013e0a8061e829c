import VortexGpu.CmdProc

/-!
# What a command does

`Performs` says which hook calls a command of the ring makes from its dispatch to its retirement, in
terms of the memories it saw; `Progress` is the part of this that an engine has made. A launch
pulses the start signal once and is over when the device has been seen busy and then idle.
-/

namespace VortexGpu.Cp
open ByteMem Word Vm List

/-- The calls of a launch machine that was set off and has come to a state. -/
inductive LaunchProgress : LaunchState → List HookCall → Prop where
  | set : LaunchProgress .pulseStart []
  | started (j : ℕ) : LaunchProgress .waitBusy (.start :: replicate j (.busy false))
  | seen (j k : ℕ) : LaunchProgress .waitDrain
      (.start :: replicate j (.busy false) ++ .busy true :: replicate k (.busy true))
  | drained (j k : ℕ) : LaunchProgress .idle
      (.start :: replicate j (.busy false) ++ .busy true :: replicate k (.busy true) ++
        [.busy false])

def Drains (cs : List HookCall) : Prop := LaunchProgress .idle cs

def launchCalls (b : Bool) : LaunchState → List HookCall
  | .idle => []
  | .pulseStart => [.start]
  | .waitBusy => [.busy b]
  | .waitDrain => [.busy b]

theorem replicate_busy (n : ℕ) (b : Bool) :
    replicate n (HookCall.busy b) ++ [.busy b] = replicate (n + 1) (.busy b) := by
  rw [replicate_succ']

theorem LaunchProgress.tick {s : CommandProcessor} {cs : List HookCall} (busy : Bool)
    (hs : s.launchState ≠ .idle) (h : LaunchProgress s.launchState cs) :
    LaunchProgress (s.tickLaunch busy).launchState (cs ++ launchCalls busy s.launchState) := by
  cases hl : s.launchState with
  | idle => exact absurd hl hs
  | pulseStart =>
    rw [hl] at h
    cases h
    simpa [CommandProcessor.tickLaunch, hl, launchCalls] using LaunchProgress.started 0
  | waitBusy =>
    rw [hl] at h
    cases h with
    | started j =>
      cases busy with
      | true => simpa [CommandProcessor.tickLaunch, hl, launchCalls] using LaunchProgress.seen j 0
      | false =>
        have hnext := LaunchProgress.started (j + 1)
        rw [← replicate_busy] at hnext
        simpa [CommandProcessor.tickLaunch, hl, launchCalls] using hnext
  | waitDrain =>
    rw [hl] at h
    cases h with
    | seen j k =>
      cases busy with
      | true =>
        have hnext := LaunchProgress.seen j (k + 1)
        rw [← replicate_busy] at hnext
        simpa [CommandProcessor.tickLaunch, hl, launchCalls] using hnext
      | false =>
        simpa [CommandProcessor.tickLaunch, hl, launchCalls] using LaunchProgress.drained j k

/-- The registers that a QMD sets: a count, and so many pairs of an address and a value. -/
def qmdSets (mem : Mem) (addr : ℕ) : List HookCall :=
  (range (min (readLE mem addr 4) maxQmdDcrs)).map fun k =>
    .dcrWrite (readLE mem (add64 addr (4 + 8 * k)) 4 % 2 ^ 12)
      (readLE mem (add64 addr (4 + 8 * k) + 4) 4)

/-- The memory after the stores among some calls. -/
def stored (mem : Mem) (cs : List HookCall) : Mem :=
  cs.foldl (fun m c => match c with | .store addr bytes => writeBytes m addr bytes | _ => m) mem

/-- The blocks of the range in order, each with the bytes of the source when it is its turn. -/
def Copies (mem : Mem) (dst src total : ℕ) (cs : List HookCall) : Prop :=
  ∀ i, cs[i]? = if i * copyChunk < total then
      some (.store (add64 dst (i * copyChunk)) (readBytes (stored mem (cs.take i))
        (add64 src (i * copyChunk)) (min (total - i * copyChunk) copyChunk)))
    else none

section Spec
variable [VmBuild] (satp : ℕ)

inductive Sets : Mem → Cmd → List HookCall → Prop where
  | launch (mem : Mem) (c : Cmd) : c.op = .launch → Sets mem c []
  | qmd (mem : Mem) (c : Cmd) (addr : ℕ) : c.op = .launchQmd →
      translate satp mem c.arg0 false = some addr → Sets mem c (.view mem :: qmdSets mem addr)

def plainCalls (c : Cmd) : List HookCall :=
  match c.op with
  | .dcrWrite => [.dcrWrite (c.arg0 % 2 ^ 12) (c.arg1 % 2 ^ 32)]
  | .dcrRead => [.dcrRead (c.arg0 % 2 ^ 12) (c.arg1 % 2 ^ 32)]
  | .cacheFlush => (range (c.arg0 % 2 ^ 32)).map (.dcrRead dcrBaseCacheFlush)
  | _ => []

inductive PerformsStep : Mem → Cmd → List HookCall → Prop where
  | launch (mem : Mem) (c : Cmd) (pre d : List HookCall) :
      Sets satp mem c pre → Drains d → PerformsStep mem c (pre ++ d)
  | plain (mem : Mem) (c : Cmd) : c.isLaunch = false → PerformsStep mem c (plainCalls c)

inductive PerformsSteps (phys : ℕ) : ℕ → List HookCall → Prop where
  | zero : PerformsSteps phys 0 []
  | succ (n : ℕ) (mem : Mem) (d e : List HookCall) : PerformsSteps phys n d →
      PerformsStep satp mem (drawStepCmd mem phys n) e →
      PerformsSteps phys (n + 1) (d ++ .view mem :: e)

def isMem (op : Op) : Bool := op == .memWrite || op == .memRead || op == .memCopy

inductive Performs : Cmd → List HookCall → Prop where
  | launch (mem : Mem) (c : Cmd) (pre d : List HookCall) :
      Sets satp mem c pre → Drains d → Performs c (pre ++ d)
  | draw (mem : Mem) (c : Cmd) (phys : ℕ) (d : List HookCall) : c.op = .draw →
      translate satp mem c.arg0 false = some phys →
      PerformsSteps satp phys (min (readLE mem phys 4) maxDrawSteps) d →
      Performs c (.view mem :: d)
  | eventSig (c : Cmd) : c.op = .eventSig → Performs c [.store c.arg0 (bytesLE 8 c.arg1)]
  | eventWait (c : Cmd) (ms : List Mem) (mem : Mem) : c.op = .eventWait →
      (∀ m ∈ ms, eventWaitSatisfied m c = false) → eventWaitSatisfied mem c = true →
      Performs c (ms.map .view ++ [.view mem])
  | copyNone (c : Cmd) : isMem c.op = true → c.arg2 = 0 → Performs c []
  | copy (mem : Mem) (c : Cmd) (dst src : ℕ) (cs : List HookCall) : isMem c.op = true →
      c.arg2 ≠ 0 → memDst satp mem c = some dst → memSrc satp mem c = some src →
      Copies mem dst src c.arg2 cs → Performs c (.view mem :: cs)
  | plain (c : Cmd) :
      c.op ∈ [Op.nop, .fence, .unknown, .dcrWrite, .dcrRead, .cacheFlush] →
      Performs c (plainCalls c)

inductive Progress (s : CommandProcessor) : EngState → List HookCall → Prop where
  | idle : s.launchState = .idle → Progress s .idle []
  | decode : s.launchState = .idle → Progress s .decode []
  | bid (ms : List Mem) : s.launchState = .idle →
      (∀ m ∈ ms, s.curCmd.op = .eventWait ∧ eventWaitSatisfied m s.curCmd = false) →
      Progress s .bid (ms.map .view)
  | waitDone (mem : Mem) (pre d : List HookCall) : Sets satp mem s.curCmd pre →
      LaunchProgress s.launchState d → Progress s .waitDone (pre ++ d)
  | drawStep (mem : Mem) (d : List HookCall) : s.launchState = .idle → s.curCmd.op = .draw →
      translate satp mem s.curCmd.arg0 false = some s.drawPhys →
      s.drawNumSteps = min (readLE mem s.drawPhys 4) maxDrawSteps →
      s.drawStep ≤ s.drawNumSteps →
      PerformsSteps satp s.drawPhys s.drawStep d → Progress s .drawStep (.view mem :: d)
  | drawLaunchWait (mem mem' : Mem) (d pre e : List HookCall) : s.curCmd.op = .draw →
      translate satp mem s.curCmd.arg0 false = some s.drawPhys →
      s.drawNumSteps = min (readLE mem s.drawPhys 4) maxDrawSteps →
      s.drawStep < s.drawNumSteps →
      PerformsSteps satp s.drawPhys s.drawStep d →
      Sets satp mem' (drawStepCmd mem' s.drawPhys s.drawStep) pre →
      LaunchProgress s.launchState e →
      Progress s .drawLaunchWait (.view mem :: (d ++ .view mem' :: (pre ++ e)))
  | retire (cs : List HookCall) : s.launchState = .idle → Performs satp s.curCmd cs →
      Progress s .retire cs

end Spec

theorem isLaunch_iff {c : Cmd} : c.isLaunch = true ↔ c.op = .launch ∨ c.op = .launchQmd := by
  simp [Cmd.isLaunch]

theorem Sets.isLaunch [VmBuild] {satp : ℕ} {mem : Mem} {c : Cmd} {pre : List HookCall}
    (h : Sets satp mem c pre) : c.isLaunch = true := by
  cases h with
  | launch hop => exact isLaunch_iff.mpr (Or.inl hop)
  | qmd addr hop _ => exact isLaunch_iff.mpr (Or.inr hop)

end VortexGpu.Cp

import VortexGpu.Runs
import VortexGpu.Word
import Mathlib.Data.Finset.Card

/-!
# Barriers

The barrier unit of a core and the `BAR` instructions that drive it. A barrier collects the warps
that have stopped at it, counts the arrivals of the round and the transactions that are still to be
released, and numbers the rounds by its phase. A call that throws or aborts has no result.
-/

namespace VortexGpu.Simx
open Word Function Option

abbrev WarpMask := Finset ℕ

structure WarpBarrier where
  waitMask : WarpMask := ∅
  arrivalMask : WarpMask := ∅
  count : ℕ := 0
  events : ℕ := 0
  phase : ℕ := 0
deriving DecidableEq

class BarrierConfig where
  numWarps : ℕ
  numBarriers : ℕ

open BarrierConfig

def barDecodeId (raw numBarriers : ℕ) : ℕ :=
  let ctaNo := raw &&& 0xff
  let barNo := (raw >>> 8) &&& 0x7fffff
  add32 (mul32 ctaNo numBarriers) barNo ||| (raw &&& 0x80000000)

inductive BarrierCall where
  | resume (warps : WarpMask)
  | globalArrive (barId count : ℕ)
deriving DecidableEq

namespace WarpBarrier

section
variable (b : WarpBarrier)

def park (wid : ℕ) : WarpBarrier := { b with waitMask := insert wid b.waitMask }

def advance : WarpBarrier := { b with waitMask := ∅, phase := add32 b.phase 1 }

def arriveLocal (count wid : ℕ) (isSyncBar : Bool) : Option (WarpBarrier × BarrierCall) :=
  let b := if isSyncBar then b.park wid else b
  let countP1 := add32 b.count 1
  let last := countP1 = count ∧ b.events = 0
  let call := BarrierCall.resume (if last then b.waitMask else ∅)
  let b := if last then b.advance else b
  if count = 0 then none else some ({ b with count := countP1 % count }, call)

def arriveGlobal (activeWarps : WarpMask) (barId count wid : ℕ) (isSyncBar : Bool) :
    WarpBarrier × BarrierCall :=
  let b := { b with count := count, arrivalMask := insert wid b.arrivalMask }
  let b := if isSyncBar then b.park wid else b
  (b, if b.arrivalMask.card = activeWarps.card ∧ b.events = 0 then .globalArrive barId count
    else .resume ∅)

def gathered : WarpBarrier := { b with arrivalMask := ∅, count := 0, events := 0 }

def wait (phase wid : ℕ) : WarpBarrier × Bool :=
  if b.phase = phase then (b.park wid, true) else (b, false)

def eventRelease (activeWarps : WarpMask) (barId : ℕ) : Option (WarpBarrier × BarrierCall) :=
  if b.events = 0 then none else
  let b := { b with events := b.events - 1 }
  if b.events = 0 then
    if 2 ^ 31 ≤ barId then
      some (b, if b.arrivalMask.card = activeWarps.card then .globalArrive barId b.count
        else .resume ∅)
    else if b.count = 0 then some (b.advance, .resume b.waitMask)
    else some (b, .resume ∅)
  else some (b, .resume ∅)

end

end WarpBarrier

open WarpBarrier

structure BarrierUnit where
  barriers : ℕ → WarpBarrier

namespace BarrierUnit
variable [BarrierConfig] (activeWarps : WarpMask) (u : BarrierUnit)

def reset : BarrierUnit := ⟨fun _ => {}⟩

def size : ℕ := numWarps * numBarriers

def index (barId : ℕ) : ℕ := barId % 2 ^ 31

def at? (barId : ℕ) : Option WarpBarrier :=
  if index barId < size then some (u.barriers (index barId)) else none

def set (barId : ℕ) (b : WarpBarrier) : BarrierUnit := ⟨update u.barriers (index barId) b⟩

def getPhase (barId : ℕ) : Option ℕ := (u.at? barId).map (·.phase)

def arrive (barId count wid : ℕ) (isSyncBar : Bool) : Option (BarrierUnit × BarrierCall) := do
  let b ← u.at? barId
  let (b, call) ←
    if 2 ^ 31 ≤ barId then some (b.arriveGlobal activeWarps barId count wid isSyncBar)
    else b.arriveLocal count wid isSyncBar
  some (u.set barId b, call)

def wait (barId phase wid : ℕ) : Option (BarrierUnit × Bool) := do
  let b ← u.at? barId
  let (b, wait) := b.wait phase wid
  some (u.set barId b, wait)

def globalResume (barId : ℕ) : Option (BarrierUnit × WarpMask) := do
  let b ← u.at? barId
  some (u.set barId b.advance, b.waitMask)

def eventAttach (barId count : ℕ) : Option BarrierUnit := do
  let b ← u.at? barId
  some (u.set barId { b with events := add32 b.events count })

def eventRelease (barId : ℕ) : Option (BarrierUnit × BarrierCall) := do
  let b ← u.at? barId
  let (b, call) ← b.eventRelease activeWarps barId
  some (u.set barId b, call)

end BarrierUnit

/-- The three barrier instructions; only `BAR.ARRIVE` has a destination register and does not stall
the warp. -/
inductive BarInstr where
  | bar | barArrive | barWait
deriving DecidableEq, Repr

/-- The last packet of a barrier instruction, with the operands of the last active thread. -/
structure BarTrace where
  instr : BarInstr
  wid : ℕ
  arg1 : ℕ
  arg2 : ℕ
deriving DecidableEq

/-- What a barrier instruction does besides: the value it writes, what the unit asks for, and
whether the instruction resumes its own warp when it commits. -/
structure BarResult where
  dst : Option ℕ
  call : BarrierCall
  releaseWarp : Bool
deriving DecidableEq

def BarResult.resumed (r : BarResult) : WarpMask :=
  match r.call with
  | .resume warps => warps
  | .globalArrive _ _ => ∅

namespace BarrierUnit
variable [BarrierConfig] (activeWarps : WarpMask) (u : BarrierUnit)

def processBar (a : BarTrace) : Option (BarrierUnit × BarResult) := do
  let barId := barDecodeId a.arg1 numBarriers
  let isSyncBar := decide (a.instr = .bar)
  let isBarArrive := decide (a.instr = .barArrive)
  let isTxExpect := isBarArrive && decide ((a.arg2 >>> 31) % 2 = 1)
  let dst ← if isBarArrive then (u.getPhase barId).map fun phase => some (phase % 2)
      else some none
  if isTxExpect then
    let u ← u.eventAttach barId (a.arg2 % 2 ^ 31)
    some (u, ⟨dst, .resume ∅, false⟩)
  else if isBarArrive || isSyncBar then
    let (u, call) ← u.arrive activeWarps barId a.arg2 a.wid isSyncBar
    some (u, ⟨dst, call, false⟩)
  else
    let (u, wait) ← u.wait barId a.arg2 a.wid
    some (u, ⟨dst, .resume ∅, !wait⟩)

end BarrierUnit

/-! ### Local barriers

An instruction on a local barrier reads and writes that barrier only. -/

inductive BarOp where
  | sync (count : ℕ)
  | arrive (count : ℕ)
  | wait (phase : ℕ)
  | expectTx (count : ℕ)
  | release
deriving DecidableEq, Repr

def BarTrace.op (a : BarTrace) : BarOp :=
  match a.instr with
  | .bar => .sync a.arg2
  | .barArrive => if (a.arg2 >>> 31) % 2 = 1 then .expectTx (a.arg2 % 2 ^ 31) else .arrive a.arg2
  | .barWait => .wait a.arg2

namespace WarpBarrier

def exec (b : WarpBarrier) (wid : ℕ) : BarOp → Option (WarpBarrier × BarResult)
  | .sync count => (b.arriveLocal count wid true).map fun r => (r.1, ⟨none, r.2, false⟩)
  | .arrive count => (b.arriveLocal count wid false).map fun r =>
      (r.1, ⟨some (b.phase % 2), r.2, false⟩)
  | .wait phase => some ((b.wait phase wid).1, ⟨none, .resume ∅, !(b.wait phase wid).2⟩)
  | .expectTx count =>
    some ({ b with events := add32 b.events count }, ⟨some (b.phase % 2), .resume ∅, false⟩)
  | .release => (b.eventRelease ∅ 0).map fun r => (r.1, ⟨none, r.2, false⟩)

section Exec
variable (b : WarpBarrier)

def allows : BarOp → Bool
  | .sync count | .arrive count => count ≠ 0
  | .release => b.events ≠ 0
  | _ => true

def parks : BarOp → Bool
  | .sync _ => true
  | .wait phase => b.phase = phase
  | _ => false

def ends : BarOp → Bool
  | .sync count | .arrive count => add32 b.count 1 = count ∧ b.events = 0
  | .release => b.events = 1 ∧ b.count = 0
  | _ => false

def parked (wid : ℕ) (op : BarOp) : WarpMask :=
  if b.parks op then insert wid b.waitMask else b.waitMask

def nextCount : BarOp → ℕ
  | .sync count | .arrive count => add32 b.count 1 % count
  | _ => b.count

def nextEvents : BarOp → ℕ
  | .expectTx count => add32 b.events count
  | .release => b.events - 1
  | _ => b.events

def dst : BarOp → Option ℕ
  | .arrive _ | .expectTx _ => some (b.phase % 2)
  | _ => none

def releases : BarOp → Bool
  | .wait phase => b.phase ≠ phase
  | _ => false

def next (wid : ℕ) (op : BarOp) : WarpBarrier where
  waitMask := if b.ends op then ∅ else b.parked wid op
  arrivalMask := b.arrivalMask
  count := b.nextCount op
  events := b.nextEvents op
  phase := if b.ends op then add32 b.phase 1 else b.phase

def result (wid : ℕ) (op : BarOp) : BarResult where
  dst := b.dst op
  call := .resume (if b.ends op then b.parked wid op else ∅)
  releaseWarp := b.releases op

theorem arriveLocal_eq {count wid : ℕ} (isSyncBar : Bool) (h : count ≠ 0) :
    b.arriveLocal count wid isSyncBar =
      let op := if isSyncBar then BarOp.sync count else .arrive count
      some (b.next wid op, (b.result wid op).call) := by
  cases isSyncBar <;> by_cases hlast : add32 b.count 1 = count ∧ b.events = 0 <;>
    simp [arriveLocal, park, advance, next, result, ends, parked, parks, nextCount, nextEvents,
      hlast, h]

theorem eventRelease_eq (h : b.events ≠ 0) :
    b.eventRelease ∅ 0 = some (b.next 0 .release, (b.result 0 .release).call) := by
  by_cases hlast : b.events = 1
  · by_cases hcount : b.count = 0 <;>
      simp [eventRelease, advance, next, result, ends, parked, parks, nextCount, nextEvents,
        hlast, hcount]
  · have hmore : b.events - 1 ≠ 0 := by omega
    simp [eventRelease, next, result, ends, parked, parks, nextCount, nextEvents, hlast, hmore, h]

theorem exec_eq {wid : ℕ} {op : BarOp} (h : b.allows op) :
    b.exec wid op = some (b.next wid op, b.result wid op) := by
  cases op with
  | sync count => simp [exec, arriveLocal_eq b true (of_decide_eq_true h), result, dst, releases]
  | arrive count => simp [exec, arriveLocal_eq b false (of_decide_eq_true h), result, dst, releases]
  | wait phase =>
    by_cases hphase : b.phase = phase <;>
      simp [exec, wait, park, next, result, ends, parked, parks, nextCount, nextEvents, dst,
        releases, hphase]
  | expectTx count => simp [exec, next, result, ends, parked, parks, nextCount, nextEvents, dst,
      releases]
  | release => simp [exec, eventRelease_eq b (of_decide_eq_true h), next, result, ends, parked,
      parks, dst, releases]

theorem next_phase_ne (wid : ℕ) (op : BarOp) :
    decide ((b.next wid op).phase ≠ b.phase) = b.ends op := by
  have hmove : add32 b.phase 1 ≠ b.phase := by
    unfold add32
    omega
  cases hends : b.ends op <;> simp [next, hends, hmove]

end Exec

end WarpBarrier

inductive BarAction where
  | bar (a : BarTrace)
  | release (barId : ℕ)
deriving DecidableEq

namespace BarAction

def barId [BarrierConfig] : BarAction → ℕ
  | .bar a => barDecodeId a.arg1 numBarriers
  | .release barId => barId

def wid : BarAction → ℕ
  | .bar a => a.wid
  | .release _ => 0

def op : BarAction → BarOp
  | .bar a => a.op
  | .release _ => .release

def Local [BarrierConfig] (a : BarAction) : Prop := a.barId < 2 ^ 31 ∧ a.barId < BarrierUnit.size

instance [BarrierConfig] (a : BarAction) : Decidable a.Local :=
  inferInstanceAs (Decidable (_ ∧ _))

end BarAction

namespace BarrierUnit
variable [BarrierConfig] {activeWarps : WarpMask} {u : BarrierUnit}

def act (activeWarps : WarpMask) (u : BarrierUnit) :
    BarAction → Option (BarrierUnit × BarResult)
  | .bar a => u.processBar activeWarps a
  | .release barId => (u.eventRelease activeWarps barId).map fun r => (r.1, ⟨none, r.2, false⟩)

variable {barId : ℕ}

section
variable (h : barId < 2 ^ 31)
include h

omit [BarrierConfig] in
theorem index_of_local : index barId = barId := Nat.mod_eq_of_lt h

theorem at?_of_local (hsize : barId < size) : u.at? barId = some (u.barriers barId) := by
  rw [at?, index_of_local h, if_pos hsize]

omit [BarrierConfig] in
theorem set_of_local (b : WarpBarrier) : u.set barId b = ⟨update u.barriers barId b⟩ := by
  rw [set, index_of_local h]

section
variable (hsize : barId < size)
include hsize

theorem arrive_local {count wid : ℕ} {isSyncBar : Bool} :
    u.arrive activeWarps barId count wid isSyncBar =
      ((u.barriers barId).arriveLocal count wid isSyncBar).map fun r =>
        (⟨update u.barriers barId r.1⟩, r.2) := by
  simp only [arrive, at?_of_local h hsize, if_neg (Nat.not_le.mpr h), set_of_local h, bind_eq_bind,
    bind_some, map_eq_bind]
  rfl

theorem wait_local {phase wid : ℕ} :
    u.wait barId phase wid =
      some (⟨update u.barriers barId ((u.barriers barId).wait phase wid).1⟩,
      ((u.barriers barId).wait phase wid).2) := by
  simp [wait, at?_of_local h hsize, set_of_local h]

theorem eventAttach_local {count : ℕ} :
    u.eventAttach barId count = some ⟨update u.barriers barId
      { u.barriers barId with events := add32 (u.barriers barId).events count }⟩ := by
  simp [eventAttach, at?_of_local h hsize, set_of_local h]

theorem eventRelease_local :
    u.eventRelease activeWarps barId = ((u.barriers barId).eventRelease ∅ 0).map fun r =>
      (⟨update u.barriers barId r.1⟩, r.2) := by
  have hrelease : (u.barriers barId).eventRelease activeWarps barId =
      (u.barriers barId).eventRelease ∅ 0 := by
    simp only [WarpBarrier.eventRelease, if_neg (Nat.not_le.mpr h),
      if_neg (by decide : ¬2 ^ 31 ≤ 0)]
  simp only [eventRelease, at?_of_local h hsize, set_of_local h, hrelease, bind_eq_bind, bind_some,
    map_eq_bind]
  rfl

theorem getPhase_local : u.getPhase barId = some (u.barriers barId).phase := by
  rw [getPhase, at?_of_local h hsize]
  rfl

end

end

theorem processBar_local {a : BarTrace} (h : barDecodeId a.arg1 numBarriers < 2 ^ 31)
    (hsize : barDecodeId a.arg1 numBarriers < size) :
    u.processBar activeWarps a = ((u.barriers (barDecodeId a.arg1 numBarriers)).exec a.wid a.op).map
      fun r => (⟨update u.barriers (barDecodeId a.arg1 numBarriers) r.1⟩, r.2) := by
  obtain ⟨instr, wid, arg1, arg2⟩ := a
  cases instr with
  | bar =>
    cases hr : (u.barriers (barDecodeId arg1 numBarriers)).arriveLocal arg2 wid true with
    | none | some r => simp [processBar, BarTrace.op, exec, arrive_local h hsize, hr]
  | barArrive =>
    by_cases htx : (arg2 >>> 31) % 2 = 1
    · simp [processBar, BarTrace.op, exec, htx, getPhase_local h hsize, eventAttach_local h hsize]
    · cases hr : (u.barriers (barDecodeId arg1 numBarriers)).arriveLocal arg2 wid false with
      | none => simp [processBar, BarTrace.op, exec, htx, getPhase_local h hsize,
          arrive_local h hsize, hr]
      | some r => simp [processBar, BarTrace.op, exec, htx, getPhase_local h hsize,
          arrive_local h hsize, hr]
  | barWait => simp [processBar, BarTrace.op, exec, wait_local h hsize]

theorem act_local {a : BarAction} (h : a.Local) :
    u.act activeWarps a = ((u.barriers a.barId).exec a.wid a.op).map fun r =>
      (⟨update u.barriers a.barId r.1⟩, r.2) := by
  obtain ⟨hlocal, hsize⟩ := h
  cases a with
  | release barId =>
    simp only [act, @eventRelease_local _ _ _ barId hlocal hsize, BarAction.barId, BarAction.op,
      exec, map_map]
    rfl
  | bar a => exact processBar_local hlocal hsize

theorem act_eq {a : BarAction} (h : a.Local) (ha : (u.barriers a.barId).allows a.op) :
    u.act activeWarps a =
      some (⟨update u.barriers a.barId ((u.barriers a.barId).next a.wid a.op)⟩,
        (u.barriers a.barId).result a.wid a.op) := by
  rw [act_local h, exec_eq _ ha]
  rfl

end BarrierUnit

end VortexGpu.Simx

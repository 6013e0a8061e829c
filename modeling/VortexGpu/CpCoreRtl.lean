import VortexGpu.CpUnitSpec
import VortexGpu.Runs

/-!
# The engines of the command processor and what they share

Every queue has an engine that takes a command, bids for the unit of its opcode, waits for the done
pulse of that unit and retires. Four round-robin arbiters give the grants; they do not know whether
a unit is idle. The done pulses reach all engines.
-/

namespace VortexGpu.Rtl
open SharedUnit Runs

inductive Resource where
  | kmu
  | dma
  | dcr
  | evt
deriving DecidableEq, Repr

/-- The unit of an opcode; `none` is an opcode that retires at once. -/
def classify (opcode : ℕ) : Option Resource :=
  match CpOpcode.ofByte opcode with
  | some .launch => some .kmu
  | some .dcrWrite | some .dcrRead | some .cacheFlush => some .dcr
  | some .memWrite | some .memRead | some .memCopy => some .dma
  | some .eventSignal | some .eventWait => some .evt
  | _ => none

/-- The round-robin arbiter keeps a mask of the bidders that come first. -/
structure RrArbiter where
  mask : ℕ → Bool

namespace RrArbiter

def reset : RrArbiter := ⟨fun _ => true⟩

def priReqs (req : ℕ → Bool) (i : ℕ) : Bool := (List.range i).any req

def masked (a : RrArbiter) (req : ℕ → Bool) (i : ℕ) : Bool := req i && a.mask i

def grant (a : RrArbiter) (n : ℕ) (req : ℕ → Bool) (i : ℕ) : Bool :=
  if priReqs (a.masked req) n then a.masked req i && !priReqs (a.masked req) i
  else req i && !priReqs req i

def next (a : RrArbiter) (n : ℕ) (req : ℕ → Bool) : RrArbiter :=
  if priReqs (a.masked req) n then ⟨priReqs (a.masked req)⟩
  else if priReqs req n then ⟨priReqs req⟩
  else a

end RrArbiter

inductive EngineFsm where
  | idle
  | decode
  | bid
  | waitDone
  | retire
deriving DecidableEq, Repr

/-- A command an engine was done with: its unit, and the clocks of its grant and of its done pulse.
-/
structure Service where
  cmd : CpCmd
  res : Resource
  granted : ℕ
  done : ℕ
deriving DecidableEq, Repr

structure VxEngine where
  fsm : EngineFsm
  curCmd : CpCmd
  curRes : Resource
  seqnum : ℕ
  grantedAt : ℕ
  services : List Service
  retired : List CpCmd

namespace VxEngine

def reset : VxEngine := ⟨.idle, ⟨0, 0, 0, 0, 0, 0, 0⟩, .kmu, 0, 0, [], []⟩

def bids (e : VxEngine) (r : Resource) : Bool := e.fsm = .bid ∧ e.curRes = r

def awaits (e : VxEngine) (r : Resource) : Bool := e.fsm = .waitDone ∧ e.curRes = r

/-- One clock of an engine: the command offered to it, its grants, the done pulses and whether the
completion unit takes a retirement. -/
def clock (e : VxEngine) (t : ℕ) (cmdIn : Option CpCmd) (grant done : Resource → Bool)
    (retireReady : Bool) : VxEngine :=
  match e.fsm with
  | .idle => match cmdIn with
    | none => e
    | some c => { e with curCmd := c, fsm := .decode }
  | .decode => match classify e.curCmd.opcode with
    | none => { e with curRes := .kmu, fsm := .retire }
    | some r => { e with curRes := r, fsm := .bid }
  | .bid => if grant e.curRes then { e with fsm := .waitDone, grantedAt := t } else e
  | .waitDone =>
    if done e.curRes then
      { e with
        fsm := .retire, services := e.services ++ [⟨e.curCmd, e.curRes, e.grantedAt, t⟩] }
    else e
  | .retire =>
    if retireReady then
      { e with fsm := .idle, seqnum := (e.seqnum + 1) % 2 ^ 64, retired := e.retired ++ [e.curCmd] }
    else e

end VxEngine

def UnitState : Resource → Type
  | .kmu => VxLaunch
  | .dma => VxDma
  | .dcr => VxDcrProxy
  | .evt => VxEventUnit

def unitReset : (r : Resource) → UnitState r
  | .kmu => VxLaunch.idle
  | .dma => VxDma.reset
  | .dcr => VxDcrProxy.reset
  | .evt => VxEventUnit.reset

def unitClock : (r : Resource) → UnitState r → Option CpCmd → UnitIn →
    UnitState r × List BusOp × Bool
  | .kmu => VxLaunch.clock
  | .dma => VxDma.clock
  | .dcr => VxDcrProxy.clock
  | .evt => VxEventUnit.clock

def unitIdle : (r : Resource) → UnitState r → Bool
  | .kmu => VxLaunch.isIdle
  | .dma => VxDma.isIdle
  | .dcr => VxDcrProxy.isIdle
  | .evt => VxEventUnit.isIdle

def executes : Resource → CpCmd → List BusOp → Prop
  | .kmu => launchExecutes
  | .dma => dmaExecutes
  | .dcr => dcrExecutes
  | .evt => eventExecutes

structure CpCore where
  time : ℕ
  engines : ℕ → VxEngine
  arbiters : Resource → RrArbiter
  units : (r : Resource) → Tracked (UnitState r) CpCmd BusOp

structure CoreIn where
  cmdIn : ℕ → Option CpCmd
  retireReady : ℕ → Bool
  pins : UnitIn

namespace CpCore

def reset : CpCore where
  time := 0
  engines _ := .reset
  arbiters _ := .reset
  units r := ⟨unitReset r, none, []⟩

section
variable (n : ℕ) (s : CpCore)

def bid (r : Resource) (q : ℕ) : Bool := q < n && (s.engines q).bids r

def grant (r : Resource) (q : ℕ) : Bool := (s.arbiters r).grant n (s.bid n r) q

def grantedCmd (r : Resource) : Option CpCmd :=
  (List.range n).foldl (fun cmd q => if s.grant n r q then some (s.engines q).curCmd else cmd) none

def done (i : CoreIn) (r : Resource) : Bool :=
  (s.units r).done (unitClock r) (s.grantedCmd n r) i.pins

def clock (i : CoreIn) : CpCore where
  time := s.time + 1
  engines q :=
    if q < n then
      (s.engines q).clock s.time (i.cmdIn q) (fun r => s.grant n r q) (s.done n i) (i.retireReady q)
    else s.engines q
  arbiters r := (s.arbiters r).next n (s.bid n r)
  units r := (s.units r).next (unitClock r) (unitIdle r) s.time (s.grantedCmd n r) i.pins

def step (i : CoreIn) : Option (CpCore × Unit) := some (s.clock n i, ())

def Clear (_ : CoreIn) : Prop := ∀ r, ∀ q < n, (s.engines q).bids r = true →
    unitIdle r (s.units r).state = true

instance Clear.decidable (n : ℕ) (s : CpCore) (i : CoreIn) : Decidable (s.Clear n i) :=
  decidable_of_iff (∀ r ∈ [Resource.kmu, .dma, .dcr, .evt], ∀ q < n,
    (s.engines q).bids r = true →
    unitIdle r (s.units r).state = true)
    ⟨fun h r => h r (by cases r <;> simp), fun h r _ => h r⟩

end

structure Paired (n : ℕ) (s : CpCore) : Prop where
  alone : ∀ q < n, ∀ q' < n, ∀ v ∈ (s.engines q).services,
    ∀ v' ∈ (s.engines q').services, v.res = v'.res → v.done = v'.done → q = q'
  owned : ∀ r, ∀ x ∈ (s.units r).log, ∃ q < n,
    (⟨x.cmd, r, x.began, x.ended⟩ : Service) ∈ (s.engines q).services
  waiting : ∀ q < n, ∀ r, (s.engines q).awaits r = true → ∃ ops,
    (s.units r).current = some ⟨(s.engines q).curCmd, (s.engines q).grantedAt, ops⟩

/-- Every command of a unit that an engine retired has been executed by the unit between the grant
and the done pulse, once and with its own operands; no two engines are done with the same pulse;
what a unit has executed belongs to an engine; and a granted command that is waited for is being
executed. -/
structure Served (n : ℕ) (s : CpCore) : Prop extends Paired n s where
  retired : ∀ q < n, ((s.engines q).retired.filter fun c => (classify c.opcode).isSome) <+:
    (s.engines q).services.map Service.cmd
  executed : ∀ q < n, ∀ v ∈ (s.engines q).services, classify v.cmd.opcode = some v.res ∧
    ∃ ops, executes v.res v.cmd ops ∧
      ((s.units v.res).log.filter fun x => decide (v.granted ≤ x.began ∧ x.ended ≤ v.done)) =
        [⟨v.cmd, v.granted, ops, v.done⟩]

end CpCore

end VortexGpu.Rtl

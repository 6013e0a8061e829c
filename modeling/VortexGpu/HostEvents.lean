import VortexGpu.HostRefs

/-!
# Events and the workers of the queues

An event is a counter that only grows and an error that is set once. Any number of queues share the
events. A move is one step of a worker or of a thread of the host, cut where a lock is taken, so
that a list of moves is an interleaving. Nothing in the program reads `pending` and the lists of
what was pushed, started and completed.
-/

namespace VortexGpu.Api
open Runs Function

structure EventState where
  counter : ℕ
  error : VxResult
deriving DecidableEq, Repr

namespace EventState

def fresh : EventState := ⟨0, .success⟩

def signal (ev : EventState) (value : ℕ) : EventState :=
  if value ≤ ev.counter then ev else { ev with counter := value }

def complete (ev : EventState) (status : VxResult) : EventState :=
  let error := if status ≠ .success ∧ ev.error = .success then status else ev.error
  if 1 ≤ ev.counter then { ev with error := error } else ⟨1, error⟩

def waitValue (ev : EventState) (value : ℕ) : Option VxResult :=
  if value ≤ ev.counter ∨ ev.error ≠ .success then some ev.error else none

end EventState

/-- Where a worker is: `waiting` keeps the events that are left and the result so far. -/
inductive Worker where
  | idle
  | waiting (cmd : Command) (deps : List ℕ) (r : VxResult)
  | running (cmd : Command)
  | completing (cmd : Command) (r : VxResult)
  | exited

def Worker.held : Worker → List Command
  | .idle => []
  | .waiting cmd _ _ => [cmd]
  | .running cmd => [cmd]
  | .completing cmd _ => [cmd]
  | .exited => []

structure QueueState where
  commands : List Command
  worker : Worker
  shutdown : Bool
  pushed : List Command
  started : List Command
  completed : List Command

def QueueState.held (Q : QueueState) : List Command := Q.worker.held ++ Q.commands

def QueueState.empty : QueueState := ⟨[], .idle, false, [], [], []⟩

structure System where
  nextEvent : ℕ
  events : ℕ → EventState
  queues : ℕ → QueueState
  pending : List ℕ

inductive Move where
  | createEvent
  | signal (e value : ℕ)
  | enqueue (q : ℕ) (work : Work) (wa : WaitArgs)
  | pop (q : ℕ)
  | await (q : ℕ)
  | start (q : ℕ)
  | exec (q : ℕ) (result : VxResult)
  | complete (q : ℕ)
  | shutdown (q : ℕ)
  | exit (q : ℕ)

def Obj.existsBelow (next : ℕ) : Obj → Bool
  | .event e => e < next
  | _ => true

/-- What a closure does to the events, and its result; `none` is a closure that is blocked.
Closures that do not move or wait for events return what the device says. -/
def Work.exec (events : ℕ → EventState) (result : VxResult) :
    Work → Option (VxResult × (ℕ → EventState))
  | .signal e value => some (.success, update events e ((events e).signal value))
  | .waitValue e value => ((events e).waitValue value).map fun r => (r, events)
  | _ => some (result, events)

namespace System

def init : System := ⟨0, fun _ => .fresh, fun _ => .empty, []⟩

section
variable (s : System)

def setQueue (q : ℕ) (Q : QueueState) : System := { s with queues := update s.queues q Q }

def setWorker (q : ℕ) (w : Worker) : System := s.setQueue q { s.queues q with worker := w }

def createEvent : System := { s with nextEvent := s.nextEvent + 1 }

def signal (e value : ℕ) : System :=
  { s with events := update s.events e ((s.events e).signal value) }

section
variable (q : ℕ)

def push (cmd : Command) : System :=
  let Q := s.queues q
  { s.setQueue q { Q with commands := Q.commands ++ [cmd], pushed := Q.pushed ++ [cmd] } with
    pending := cmd.completion :: s.pending }

/-- A wait list with a null handle is refused. Handles of events that do not exist have no meaning.
-/
def enqueue (work : Work) (wa : WaitArgs) : Option System :=
  if wa.captured.all (· < s.nextEvent) ∧ work.objs.all (Obj.existsBelow s.nextEvent) then
    if wa.accepted then some (s.createEvent.push q ⟨wa.captured, s.nextEvent, work⟩) else some s
  else none

def pop : Option System :=
  match (s.queues q).worker, (s.queues q).commands with
  | .idle, cmd :: rest =>
    some (s.setQueue q { s.queues q with
      commands := rest, worker := .waiting cmd cmd.waits .success })
  | _, _ => none

def await : Option System :=
  match (s.queues q).worker with
  | .waiting cmd (dep :: deps) r =>
    if r = .success then ((s.events dep).waitValue 1).map fun r =>
      s.setWorker q (.waiting cmd deps r)
    else some (s.setWorker q (.waiting cmd deps r))
  | _ => none

def start : Option System :=
  match (s.queues q).worker with
  | .waiting cmd [] r =>
    if r = .success then
      some (s.setQueue q { s.queues q with
        worker := .running cmd, started := (s.queues q).started ++ [cmd] })
    else some (s.setWorker q (.completing cmd r))
  | _ => none

def exec (result : VxResult) : Option System :=
  match (s.queues q).worker with
  | .running cmd => (cmd.work.exec s.events result).map fun r =>
      { s.setWorker q (.completing cmd r.1) with events := r.2 }
  | _ => none

def complete : Option System :=
  match (s.queues q).worker with
  | .completing cmd r =>
    some { s.setQueue q { s.queues q with
        worker := .idle, completed := (s.queues q).completed ++ [cmd] } with
      events := update s.events cmd.completion ((s.events cmd.completion).complete r),
      pending := s.pending.erase cmd.completion }
  | _ => none

def exit : Option System :=
  match (s.queues q).worker, (s.queues q).commands with
  | .idle, [] => if (s.queues q).shutdown then some (s.setWorker q .exited) else none
  | _, _ => none

end

def step : Move → Option (System × Unit)
  | .createEvent => some (s.createEvent, ())
  | .signal e value => if e < s.nextEvent then some (s.signal e value, ()) else none
  | .enqueue q work wa => (s.enqueue q work wa).map (·, ())
  | .pop q => (s.pop q).map (·, ())
  | .await q => (s.await q).map (·, ())
  | .start q => (s.start q).map (·, ())
  | .exec q result => (s.exec q result).map (·, ())
  | .complete q => (s.complete q).map (·, ())
  | .shutdown q => some (s.setQueue q { s.queues q with shutdown := true }, ())
  | .exit q => (s.exit q).map (·, ())

def Passed (e : ℕ) : Prop := 1 ≤ (s.events e).counter ∧ (s.events e).error = .success

end

/-- What holds in a state: a closure that is running has every earlier command completed and all
events of its list passed; a command with a failed event in its list has not been started, and
has failed itself once it is completed. -/
structure Ordered (s : System) : Prop where
  earlier : ∀ q cmd, (s.queues q).worker = .running cmd →
    (∃ later, (s.queues q).pushed = (s.queues q).completed ++ cmd :: later) ∧
      ∀ c ∈ (s.queues q).completed, 1 ≤ (s.events c.completion).counter
  passed : ∀ q cmd, (s.queues q).worker = .running cmd → ∀ e ∈ cmd.waits, s.Passed e
  failed : ∀ q, ∀ cmd ∈ (s.queues q).pushed,
    (∃ e ∈ cmd.waits, (s.events e).error ≠ .success) →
    cmd ∉ (s.queues q).started ∧
      (cmd ∈ (s.queues q).completed → (s.events cmd.completion).error ≠ .success)

/-- What holds between two states of a run: counters have not gone down, and errors that were set
are as they were. -/
structure Grown (s t : System) : Prop where
  counter : ∀ e, (s.events e).counter ≤ (t.events e).counter
  error : ∀ e, (s.events e).error ≠ .success → (t.events e).error = (s.events e).error

/-- No signal moves the completion event of a command that has not been completed. -/
def Clean (s : System) : Move → Prop
  | .signal e value => 1 ≤ value → e ∉ s.pending
  | .exec q _ => match (s.queues q).worker with
    | .running cmd => match cmd.work with
      | .signal e value => 1 ≤ value → e ∉ s.pending
      | _ => True
    | _ => True
  | _ => True

instance Clean.decidable (s : System) (m : Move) : Decidable (s.Clean m) := by
  unfold Clean
  repeat' split
  all_goals infer_instance

end System

end VortexGpu.Api

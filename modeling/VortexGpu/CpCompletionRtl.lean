import Mathlib.Data.List.Induction
import Mathlib.Data.Nat.Log
import VortexGpu.CmdRuns
import VortexGpu.CpCoreRtl
import VortexGpu.PointerQueue
import VortexGpu.Runs

/-!
# Writing back completions

An engine holds its retirement until the completion unit takes it. The unit latches the address and
the number of a retirement, moves one latched retirement in a clock to a queue, and writes the queue
to memory, one write after the other. The queue has `2 * NUM_QUEUES` cells and pointers that count
to a power of two: what goes to a cell past the end is lost, and with a power of two of queues
nothing is. An engine presents its number before it counts the command, so that the first one is
zero.

`handshakes` and `writes` record which engine retired and what was written, for the statements.
-/

namespace VortexGpu.Rtl
open PointerQueue List Nat Function Bool

structure CmplEnt where
  addr : ℕ
  seqnum : ℕ
deriving DecidableEq, Repr

inductive CmplFsm where
  | idle
  | reqAw
  | reqW
  | waitB
deriving DecidableEq, Repr

structure VxCompletion where
  pending : ℕ → Bool
  pendingEnt : ℕ → CmplEnt
  fifo : ℕ → CmplEnt
  wptr : ℕ
  rptr : ℕ
  rrPtr : ℕ
  state : CmplFsm
  curEnt : CmplEnt

namespace VxEngine

theorem clock_retire {e : VxEngine} (t : ℕ) (cmdIn : Option CpCmd)
    (grant done : Resource → Bool)
    (hfsm : e.fsm = .retire) : e.clock t cmdIn grant done true = { e with
      fsm := .idle, seqnum := (e.seqnum + 1) % 2 ^ 64, retired := e.retired ++ [e.curCmd] } := by
  simp [clock, hfsm]

theorem clock_hold {e : VxEngine} (t : ℕ) (cmdIn : Option CpCmd) (grant done : Resource → Bool)
    (hfsm : e.fsm = .retire) : e.clock t cmdIn grant done false = e := by
  simp [clock, hfsm]

theorem clock_keeps (e : VxEngine) (t : ℕ) (cmdIn : Option CpCmd)
    (grant done : Resource → Bool) : (e.clock t cmdIn grant done false).seqnum = e.seqnum ∧
      (e.clock t cmdIn grant done false).retired = e.retired := by
  simp only [clock]
  repeat' split
  all_goals first | exact ⟨rfl, rfl⟩ | contradiction

end VxEngine

/-- The value in the completion slot of the functional model once it has retired `n` commands. -/
def Published (n value : ℕ) : Prop :=
  ∀ [Cp.VmBuild] (busy : Bool) (rsp : ℕ → ℕ → ℕ) (s t : Cp.CommandProcessor),
    s.engState = .retire → s.enabled = true → s.q0.seqnum = (n - 1) % 2 ^ 64 →
    s.tick busy rsp = some t → t.q0.cmplAddr ≠ 0 →
      ByteMem.readLE t.dram t.q0.cmplAddr 8 = value

theorem published (n : ℕ) : Published (n + 1) ((n + 1) % 2 ^ 64) := by
  intro _ busy rsp s t hs he hseq ht hne
  obtain ⟨hnext, hslot⟩ := Cp.tick_completes hs he ht
  rw [hslot hne, hnext, hseq, Word.add64]
  omega

/-- The number of queues, and where the completions of each one go. -/
class CmplConfig where
  queues : ℕ
  addr : ℕ → ℕ

section
open CmplConfig
variable [CmplConfig]

def fifoDepth : ℕ := 2 * queues

def fifoPtrW : ℕ := if 1 < fifoDepth then clog 2 fifoDepth else 1

namespace VxCompletion

def reset : VxCompletion :=
  ⟨fun _ => false, fun _ => ⟨0, 0⟩, fun _ => ⟨0, 0⟩, 0, 0, 0, .idle, ⟨0, 0⟩⟩

section
variable (u : VxCompletion)

def fifoEmpty : Bool := u.wptr == u.rptr

def fifoFull : Bool :=
  u.wptr % 2 ^ fifoPtrW == u.rptr % 2 ^ fifoPtrW &&
    u.wptr / 2 ^ fifoPtrW != u.rptr / 2 ^ fifoPtrW

def selIdx : Option ℕ :=
  ((range queues).map fun k => (u.rrPtr + k) % queues).find? u.pending

def enq : Option ℕ := if u.fifoFull then none else u.selIdx

def retireReady (q : ℕ) : Bool := u.enq == some q

def fifoRead : CmplEnt :=
  let i := u.rptr % 2 ^ fifoPtrW
  if i < fifoDepth then u.fifo i else ⟨0, 0⟩

def fifoWrite (e : CmplEnt) : ℕ → CmplEnt :=
  let i := u.wptr % 2 ^ fifoPtrW
  if i < fifoDepth then update u.fifo i e else u.fifo

def capture (retireEvt : ℕ → Bool) (ent : ℕ → CmplEnt) : VxCompletion := { u with
  pending := fun q => u.pending q || (decide (q < queues) && retireEvt q)
  pendingEnt := fun q => if q < queues ∧ retireEvt q ∧ ¬u.pending q then ent q
    else u.pendingEnt q }

end

def drain (u v : VxCompletion) : VxCompletion :=
  match u.enq with
  | none => v
  | some q => { v with
      fifo := u.fifoWrite (u.pendingEnt q)
      wptr := (u.wptr + 1) % 2 ^ (fifoPtrW + 1)
      pending := update v.pending q false
      rrPtr := if 1 < queues then (q + 1) % queues else u.rrPtr }

def write (u v : VxCompletion) (awready wready bvalid : Bool) : VxCompletion × List CmplEnt :=
  match u.state with
  | .idle =>
    if u.fifoEmpty then (v, [])
    else ({ v with
      curEnt := u.fifoRead, rptr := (u.rptr + 1) % 2 ^ (fifoPtrW + 1), state := .reqAw }, [])
  | .reqAw => if awready then ({ v with state := .reqW }, []) else (v, [])
  | .reqW => if wready then ({ v with state := .waitB }, [u.curEnt]) else (v, [])
  | .waitB => if bvalid then ({ v with state := .idle }, []) else (v, [])

def clock (u : VxCompletion) (retireEvt : ℕ → Bool) (ent : ℕ → CmplEnt)
    (awready wready bvalid : Bool) : VxCompletion × List CmplEnt :=
  u.write (u.drain (u.capture retireEvt ent)) awready wready bvalid

end VxCompletion

open VxCompletion

structure CmplIn where
  cmdIn : ℕ → Option CpCmd
  grant : ℕ → Resource → Bool
  done : ℕ → Resource → Bool
  awready : Bool
  wready : Bool
  bvalid : Bool

/-- The handshake the unit waits for; between two writes it waits for none. -/
def VxCompletion.shake (u : VxCompletion) (i : CmplIn) : Bool :=
  match u.state with
  | .idle => true
  | .reqAw => i.awready
  | .reqW => i.wready
  | .waitB => i.bvalid

structure CmplWorld where
  engines : ℕ → VxEngine
  cmpl : VxCompletion
  handshakes : List ℕ
  writes : List CmplEnt

namespace CmplWorld

def ent (w : CmplWorld) (q : ℕ) : CmplEnt := ⟨addr q, (w.engines q).seqnum⟩

def handshake (w : CmplWorld) : List ℕ :=
  match w.cmpl.enq with
  | some q => if (w.engines q).fsm = .retire then [q] else []
  | none => []

def clock (w : CmplWorld) (i : CmplIn) : CmplWorld :=
  let r := w.cmpl.clock (fun q => (w.engines q).fsm == .retire) w.ent i.awready i.wready i.bvalid
  { engines := fun q =>
    (w.engines q).clock 0 (i.cmdIn q) (i.grant q) (i.done q) (w.cmpl.retireReady q)
    cmpl := r.1
    handshakes := w.handshakes ++ w.handshake
    writes := w.writes ++ r.2 }

def reset : CmplWorld := ⟨fun _ => .reset, .reset, [], []⟩

def run (w : CmplWorld) (is : List CmplIn) : CmplWorld := is.foldl clock w

def awaited (w : CmplWorld) (is : List CmplIn) : ℕ :=
  Runs.awaited clock (fun w i => w.cmpl.shake i) w is

/-- The entry of the retirement at a place of a list, when every queue counts from `first`. -/
def entry (first : ℕ) (hs : List ℕ) (p : ℕ × ℕ) : CmplEnt :=
  ⟨addr p.1, (first + (hs.take p.2).count p.1) % 2 ^ 64⟩

def entries (first : ℕ) (hs : List ℕ) : List CmplEnt := hs.zipIdx.map (entry first hs)

/-- The entry as its cell of the queue gives it back; a cell past the end gives back nothing. -/
def inCell (cell : ℕ) (e : CmplEnt) : CmplEnt := if cell < fifoDepth then e else ⟨0, 0⟩

def stored (hs : List ℕ) : List CmplEnt :=
  hs.zipIdx.map fun p => inCell (p.2 % 2 ^ fifoPtrW) (entry 0 hs p)

def current (u : VxCompletion) : List CmplEnt :=
  match u.state with
  | .reqAw | .reqW => [u.curEnt]
  | .idle | .waitB => []

structure Inv (w : CmplWorld) : Prop where
  latched : ∀ q, w.cmpl.pending q = true → q < queues ∧ (w.engines q).fsm = .retire ∧
    w.cmpl.pendingEnt q = w.ent q
  numbers : ∀ q, (w.engines q).seqnum = w.handshakes.count q % 2 ^ 64
  retired : ∀ q, (w.engines q).retired.length = w.handshakes.count q
  outside : ∀ i, fifoDepth ≤ i → w.cmpl.fifo i = ⟨0, 0⟩
  wptr : w.cmpl.wptr = w.handshakes.length % 2 ^ (fifoPtrW + 1)
  order : ∃ items, Holds (2 ^ fifoPtrW) w.cmpl.fifo w.cmpl.rptr w.cmpl.wptr items ∧
    w.writes ++ current w.cmpl ++ items = stored w.handshakes

end CmplWorld

open CmplWorld

namespace VxCompletion
variable {u : VxCompletion} {items : List CmplEnt}

theorem selIdx_spec {q : ℕ} (h : u.selIdx = some q) : u.pending q = true :=
  find?_some h

theorem enq_pending {q : ℕ} (h : u.enq = some q) : u.pending q = true := by
  simp only [enq] at h
  split at h
  · cases h
  · exact selIdx_spec h

theorem fifoFull_iff (h : Holds (2 ^ fifoPtrW) u.fifo u.rptr u.wptr items) :
    u.fifoFull = true ↔ items.length = 2 ^ fifoPtrW := by
  rw [← h.full_iff (Nat.two_pow_pos _)]
  simp [fifoFull]

def pushed (u : VxCompletion) : List CmplEnt :=
  match u.enq with
  | some q => [inCell (u.wptr % 2 ^ fifoPtrW) (u.pendingEnt q)]
  | none => []

section
variable (hout : ∀ i, fifoDepth ≤ i → u.fifo i = ⟨0, 0⟩)
include hout

theorem fifoRead_eq : u.fifoRead = u.fifo (u.rptr % 2 ^ fifoPtrW) := by
  simp only [fifoRead]
  split
  · rfl
  · exact (hout _ (by omega)).symm

theorem fifoWrite_eq (e : CmplEnt) : u.fifoWrite e =
    update u.fifo (u.wptr % 2 ^ fifoPtrW)
      (inCell (u.wptr % 2 ^ fifoPtrW) e) := by
  simp only [fifoWrite, inCell]
  split
  · rfl
  · rw [← hout _ (Nat.not_lt.mp ‹_›), update_eq_self]

theorem drain_spec (v : VxCompletion) (hfifo : v.fifo = u.fifo) (hw : v.wptr = u.wptr)
    (h : Holds (2 ^ fifoPtrW) u.fifo u.rptr u.wptr items) :
    Holds (2 ^ fifoPtrW) (u.drain v).fifo u.rptr (u.drain v).wptr
      (items ++ u.pushed) := by
  cases hq : u.enq with
  | none => simpa [drain, pushed, hq, hfifo, hw] using h
  | some q =>
    have hroom : items.length < 2 ^ fifoPtrW := by
      refine lt_of_le_of_ne h.fits fun hfull => ?_
      simp [enq, (fifoFull_iff h).mpr hfull] at hq
    simp only [drain, pushed, hq, fifoWrite_eq hout, pow_succ, mul_comm _ 2]
    exact h.push hroom

theorem drain_outside (v : VxCompletion) (hfifo : v.fifo = u.fifo) {i : ℕ}
    (hi : fifoDepth ≤ i) : (u.drain v).fifo i = ⟨0, 0⟩ := by
  cases hq : u.enq with
  | none => simpa [drain, hq, hfifo] using hout i hi
  | some q =>
    simp only [drain, hq, fifoWrite]
    split
    · rw [update_of_ne (by omega), hout i hi]
    · exact hout i hi

end

theorem write_frame (u v : VxCompletion) (awready wready bvalid : Bool) :
    (u.write v awready wready bvalid).1.pending = v.pending ∧
      (u.write v awready wready bvalid).1.pendingEnt = v.pendingEnt ∧
      (u.write v awready wready bvalid).1.fifo = v.fifo ∧
      (u.write v awready wready bvalid).1.wptr = v.wptr := by
  simp only [write]
  repeat' split
  all_goals exact ⟨rfl, rfl, rfl, rfl⟩

theorem drain_frame {u v : VxCompletion} {evt : ℕ → Bool} {ent : ℕ → CmplEnt}
    (hv : u.drain (u.capture evt ent) = v) :
    v.rptr = u.rptr ∧ v.state = u.state ∧ v.curEnt = u.curEnt ∧
      v.pendingEnt = (u.capture evt ent).pendingEnt := by
  subst hv
  simp only [drain]
  split <;> exact ⟨rfl, rfl, rfl, rfl⟩

variable {evt : ℕ → Bool} {ent : ℕ → CmplEnt} {awready wready bvalid : Bool}
  {r : VxCompletion × List CmplEnt} (hr : u.clock evt ent awready wready bvalid = r)
include hr

theorem clock_spec (hout : ∀ i, fifoDepth ≤ i → u.fifo i = ⟨0, 0⟩)
    (h : Holds (2 ^ fifoPtrW) u.fifo u.rptr u.wptr items) :
    ∃ items', Holds (2 ^ fifoPtrW) r.1.fifo r.1.rptr r.1.wptr items' ∧
      r.2 ++ current r.1 ++ items' = current u ++ items ++ u.pushed := by
  have hd : 0 < 2 ^ fifoPtrW := Nat.two_pow_pos _
  have hdrain := drain_spec hout (u.capture evt ent) rfl rfl h
  subst hr
  simp only [clock]
  generalize hv : u.drain (u.capture evt ent) = v at hdrain ⊢
  obtain ⟨hrptr, hstate, hcur, -⟩ := drain_frame hv
  rw [← hrptr] at hdrain
  cases hs : u.state with
  | idle =>
    cases items with
    | nil =>
      have hempty : u.fifoEmpty = true := by simp [fifoEmpty, (h.empty_iff hd).mpr rfl]
      refine ⟨_, by simpa [write, hs, hempty] using hdrain, ?_⟩
      simp [write, hs, hempty, current, hstate]
    | cons a rest =>
      have hempty : u.fifoEmpty = false := by simp [fifoEmpty, h.empty_iff hd]
      refine ⟨rest ++ u.pushed, ?_, ?_⟩
      · have hpop := hdrain.pop.2
        rw [hrptr] at hpop
        simpa [write, hs, hempty, pow_succ, mul_comm _ 2] using hpop
      · simp [write, hs, hempty, current, fifoRead_eq hout, h.pop.1]
  | reqAw =>
    cases awready <;>
      exact ⟨_, by simpa [write, hs] using hdrain, by simp [write, hs, current, hstate, hcur]⟩
  | reqW =>
    cases wready <;>
      exact ⟨_, by simpa [write, hs] using hdrain, by simp [write, hs, current, hstate, hcur]⟩
  | waitB =>
    cases bvalid <;>
      exact ⟨_, by simpa [write, hs] using hdrain, by simp [write, hs, current, hstate, hcur]⟩

theorem clock_wptr : r.1.wptr =
    if u.enq.isSome then (u.wptr + 1) % 2 ^ (fifoPtrW + 1) else u.wptr := by
  subst hr
  rw [clock, (write_frame _ _ _ _ _).2.2.2]
  cases hq : u.enq <;> simp [drain, hq, capture]

theorem clock_latches {q : ℕ} (h : r.1.pending q = true) : u.enq ≠ some q ∧
    ((u.pending q = true ∧ r.1.pendingEnt q = u.pendingEnt q) ∨
      (q < queues ∧ evt q = true ∧ r.1.pendingEnt q = ent q)) := by
  subst hr
  simp only [clock, write_frame] at h ⊢
  obtain ⟨-, -, -, hent⟩ := @drain_frame _ u _ evt ent rfl
  have hpend : u.enq ≠ some q ∧ (u.capture evt ent).pending q = true := by
    simp only [drain] at h
    split at h
    · exact ⟨by simp_all, h⟩
    rename_i p hp
    by_cases hpq : q = p
    · rw [hpq] at h
      simp at h
    · simp only [update_of_ne hpq] at h
      exact ⟨by rw [hp]; simpa [eq_comm] using hpq, h⟩
  refine ⟨hpend.1, ?_⟩
  rw [hent]
  simp only [capture] at hpend ⊢
  cases hold : u.pending q with
  | true => exact .inl ⟨rfl, by simp⟩
  | false =>
    simp only [hold, Bool.false_or, and_eq_true, decide_eq_true_eq] at hpend
    exact .inr ⟨hpend.2.1, hpend.2.2, by simp [hpend.2]⟩

end VxCompletion

namespace CmplWorld
variable {w : CmplWorld}

theorem entry_append (first : ℕ) (hs : List ℕ) (q : ℕ) {p : ℕ × ℕ}
    (hp : p ∈ hs.zipIdx) : entry first (hs ++ [q]) p = entry first hs p := by
  have hlt := snd_lt_of_mem_zipIdx hp
  rw [entry, take_append_of_le_length (by omega)]
  rfl

theorem stored_append (hs : List ℕ) (q : ℕ) : stored (hs ++ [q]) =
    stored hs ++ [inCell (hs.length % 2 ^ fifoPtrW)
      ⟨addr q, hs.count q % 2 ^ 64⟩] := by
  simp only [stored, zipIdx_append, map_append]
  congr 1
  · exact map_congr_left fun p hp => by rw [entry_append 0 hs q hp]
  · simp [entry]

theorem stored_mono (hs hs' : List ℕ) : stored hs <+: stored (hs ++ hs') := by
  induction hs' using reverseRecOn with
  | nil => simp
  | append_singleton hs' q ih =>
    rw [← append_assoc, stored_append]
    exact ih.trans (prefix_append _ _)

theorem length_stored (hs : List ℕ) : (stored hs).length = hs.length := by
  simp [stored]

theorem stored_eq_entries (hpow : 2 ^ fifoPtrW = fifoDepth) (hs : List ℕ) :
    stored hs = entries 0 hs := by
  refine map_congr_left fun p _ => ?_
  rw [hpow, inCell, if_pos (mod_lt _ (hpow ▸ Nat.two_pow_pos _))]

theorem Inv.handshake_eq (h : Inv w) : w.handshake = w.cmpl.enq.toList := by
  simp only [handshake]
  split
  · rename_i q hq
    rw [if_pos (h.latched q (enq_pending hq)).2.1, hq]
    rfl
  · rename_i hq
    rw [hq]
    rfl

theorem Inv.engine_clock (h : Inv w) (i : CmplIn) (q : ℕ) :
    ((w.clock i).engines q).seqnum =
        (w.clock i).handshakes.count q % 2 ^ 64 ∧
      ((w.clock i).engines q).retired.length =
        (w.clock i).handshakes.count q := by
  have hnum := h.numbers q
  have hret := h.retired q
  simp only [clock, h.handshake_eq, count_append]
  cases hq : w.cmpl.retireReady q with
  | true =>
    have henq : w.cmpl.enq = some q := by simpa [retireReady] using hq
    have hfsm := (h.latched q (enq_pending henq)).2.1
    rw [VxEngine.clock_retire _ _ _ _ hfsm, henq]
    simp only [Option.toList_some, count_singleton_self, length_append, length_singleton]
    omega
  | false =>
    have henq : ¬w.cmpl.enq = some q := by simpa [retireReady] using hq
    have hcount : w.cmpl.enq.toList.count q = 0 := by
      rw [count_eq_zero]
      intro hmem
      exact henq (Option.mem_toList.mp hmem)
    obtain ⟨hs, hr⟩ := (w.engines q).clock_keeps 0 (i.cmdIn q) (i.grant q) (i.done q)
    rw [hs, hr, hcount]
    exact ⟨hnum, hret⟩

theorem Inv.clock (h : Inv w) (i : CmplIn) : Inv (w.clock i) where
  latched q hq := by
    obtain ⟨henq, hkept⟩ := clock_latches rfl hq
    have hnot : w.cmpl.retireReady q = false := by simpa [retireReady] using henq
    have hhold : (w.engines q).fsm = .retire →
        (w.clock i).engines q = w.engines q := by
      intro hfsm
      simp only [CmplWorld.clock, hnot]
      exact VxEngine.clock_hold _ _ _ _ hfsm
    rcases hkept with ⟨hold, hent⟩ | ⟨hlt, hevt, hent⟩
    · obtain ⟨hlt, hfsm, hent'⟩ := h.latched q hold
      refine ⟨hlt, by rw [hhold hfsm, hfsm], hent.trans ?_⟩
      rw [hent', ent, ent, hhold hfsm]
    · have hfsm : (w.engines q).fsm = .retire := eq_of_beq hevt
      refine ⟨hlt, by rw [hhold hfsm, hfsm], hent.trans ?_⟩
      rw [ent, ent, hhold hfsm]
  numbers q := (h.engine_clock i q).1
  retired q := (h.engine_clock i q).2
  outside j hj := by
    simp only [CmplWorld.clock, VxCompletion.clock, write_frame]
    exact drain_outside h.outside (w.cmpl.capture _ _) rfl hj
  wptr := by
    have hlen : (w.clock i).handshakes.length =
        w.handshakes.length + w.cmpl.enq.toList.length := by
      simp only [CmplWorld.clock, h.handshake_eq, length_append]
    rw [hlen, show (w.clock i).cmpl.wptr = _ from clock_wptr rfl, h.wptr]
    cases w.cmpl.enq <;> simp
  order := by
    obtain ⟨items, hitems, horder⟩ := h.order
    obtain ⟨items', hitems', hpass⟩ := clock_spec rfl h.outside hitems
    refine ⟨items', hitems', ?_⟩
    have hpushed : stored (w.handshakes ++ w.handshake) =
        stored w.handshakes ++ w.cmpl.pushed := by
      rw [h.handshake_eq]
      simp only [pushed]
      cases hq : w.cmpl.enq with
      | none => simp
      | some q =>
        simp only [Option.toList_some]
        rw [stored_append, (h.latched q (enq_pending hq)).2.2, ent, h.numbers q, h.wptr,
          mod_mod_of_dvd _ (Nat.pow_dvd_pow 2 (le_succ _))]
    have hclock := hpushed.trans (congrArg (· ++ w.cmpl.pushed) horder.symm)
    simp only [CmplWorld.clock]
    rw [hclock]
    simp only [append_assoc] at hpass ⊢
    rw [hpass]

theorem Inv.run (h : Inv w) (is : List CmplIn) : Inv (w.run is) := by
  induction is generalizing w with
  | nil => exact h
  | cons i _ ih => exact ih (h.clock i)

theorem inv_reset : Inv reset where
  latched q hq := absurd hq (by simp [reset, VxCompletion.reset])
  numbers q := rfl
  retired q := rfl
  outside _ _ := rfl
  wptr := (zero_mod _).symm
  order := ⟨[], holds_empty _ _, rfl⟩

theorem run_handshakes (w : CmplWorld) (is : List CmplIn) :
    ∃ hs, (w.run is).handshakes = w.handshakes ++ hs := by
  induction is generalizing w with
  | nil => exact ⟨[], (append_nil _).symm⟩
  | cons i is ih =>
    obtain ⟨hs, hhs⟩ := ih (w.clock i)
    exact ⟨w.handshake ++ hs, by rw [← append_assoc]; exact hhs⟩

theorem length_writes_run (w : CmplWorld) (is : List CmplIn) :
    w.writes.length ≤ (w.run is).writes.length := by
  induction is generalizing w with
  | nil => exact le_rfl
  | cons i is ih =>
    refine le_trans ?_ (ih (w.clock i))
    simp only [clock, length_append]
    omega

/-- The handshakes until the first `n` retirements are written. -/
def need (n : ℕ) (w : CmplWorld) : ℕ :=
  4 * (n - w.writes.length) - match w.cmpl.state with
    | .waitB => 0
    | .idle => 1
    | .reqAw => 2
    | .reqW => 3

theorem Inv.need_clock (h : Inv w) {n : ℕ} (hn : n ≤ w.handshakes.length)
    (hleft : w.writes.length < n) (i : CmplIn) :
    need n (w.clock i) + (w.cmpl.shake i).toNat ≤ need n w ∨
      n ≤ (w.clock i).writes.length := by
  obtain ⟨items, hitems, horder⟩ := h.order
  have hlen := congrArg length horder
  rw [length_stored, length_append, length_append] at hlen
  have hcmpl : (w.clock i).cmpl.state = (w.cmpl.write (w.cmpl.drain
      (w.cmpl.capture (fun q => (w.engines q).fsm == .retire) w.ent))
        i.awready i.wready i.bvalid).1.state := rfl
  have hwrites : (w.clock i).writes = w.writes ++ (w.cmpl.write
      (w.cmpl.drain (w.cmpl.capture (fun q => (w.engines q).fsm == .retire)
        w.ent)) i.awready i.wready i.bvalid).2 := rfl
  generalize hv : w.cmpl.drain _ = v at hcmpl hwrites
  have hstate := (drain_frame hv).2.1
  simp only [need, hcmpl, hwrites, write, shake]
  cases hs : w.cmpl.state with
  | idle =>
    have hne : w.cmpl.fifoEmpty = false := by
      rw [eq_false_iff]
      intro hempty
      have hnil := (hitems.empty_iff (Nat.two_pow_pos _)).mp (eq_of_beq hempty)
      simp only [current, hs, hnil, length_nil] at hlen
      omega
    simp only [hne, false_eq_true, if_false, append_nil, toNat_true]
    omega
  | reqAw =>
    cases i.awready <;> simp [hs, hstate]
    omega
  | reqW =>
    cases i.wready <;> simp [hs, hstate]
    omega
  | waitB =>
    cases i.bvalid <;> simp [hs, hstate]
    omega

theorem writes_of_stops {n : ℕ} {is : List CmplIn} (h : Runs.stops clock
      (fun w i => n ≤ (w.clock i).writes.length) w is = true) :
      n ≤ (w.run is).writes.length := by
  induction is generalizing w with
  | nil => cases h
  | cons i is ih =>
    rw [Runs.stops, or_eq_true, decide_eq_true_eq] at h
    exact h.elim (·.trans (length_writes_run _ is)) ih

theorem Inv.writes_of_awaited (h : Inv w) {n : ℕ} (hn : n ≤ w.handshakes.length)
    {is : List CmplIn} (hcount : need n w ≤ w.awaited is) : n ≤ (w.run is).writes.length := by
  by_cases hleft : n ≤ w.writes.length
  · exact hleft.trans (length_writes_run w is)
  refine writes_of_stops (Runs.stops_of_awaited (need n)
    (I := fun w => Inv w ∧ n ≤ w.handshakes.length ∧ w.writes.length < n)
    (fun w hw => ?_) (fun w i hw => ?_) ⟨h, hn, Nat.not_le.mp hleft⟩ hcount)
  · have hlt := hw.2.2
    simp only [need]
    split <;> omega
  · rw [decide_eq_true_eq, or_iff_not_imp_left]
    intro hmore
    refine ⟨⟨hw.1.clock i, ?_, Nat.not_le.mp hmore⟩,
      (hw.1.need_clock hw.2.1 hw.2.2 i).resolve_right hmore⟩
    simp only [CmplWorld.clock, length_append]
    have := hw.2.1
    omega

theorem fifoPtrW_pow {k : ℕ} (hk : queues = 2 ^ k) : 2 ^ fifoPtrW = fifoDepth := by
  have hdepth : fifoDepth = 2 ^ (k + 1) := by rw [fifoDepth, hk, pow_succ, mul_comm]
  have hone : 1 < 2 ^ (k + 1) := Nat.one_lt_two_pow (succ_ne_zero k)
  rw [fifoPtrW, hdepth, if_pos hone, clog_pow 2 (k + 1) (by decide)]

/-- The writes so far are those of the first retirements, in their order, and the `n`-th of a queue
carries `n`. -/
def Completes (w : CmplWorld) : Prop := w.writes <+: entries 1 w.handshakes

theorem Inv.not_completes (h : Inv w) (hq : 0 < queues) (hw : w.writes ≠ []) : ¬Completes w := by
  obtain ⟨items, _, horder⟩ := h.order
  obtain ⟨e, es, hes⟩ := exists_cons_of_ne_nil hw
  rintro ⟨rest, hrest⟩
  cases hhs : w.handshakes with
  | nil => simp [hes, hhs, entries] at hrest
  | cons q hs =>
    have hdepth : 0 < fifoDepth := by
      rw [fifoDepth]
      omega
    simp only [hes, hhs, stored, entries, zipIdx_cons, map_cons, cons_append,
      cons.injEq] at horder hrest
    have hseq := congrArg CmplEnt.seqnum (horder.1.symm.trans hrest.1)
    simp [inCell, hdepth, entry] at hseq

/-- From reset on, with any inputs, no write carries the number of commands retired: the first one
is zero. Otherwise a power of two of queues does what is asked: every retirement is written once and
in order, the `n`-th of a queue as `n - 1`, as soon as the handshakes the unit waits for have come.
The functional model publishes `n`. -/
theorem completions_off_by_one (hqueues : 0 < queues) (is : List CmplIn) (w : CmplWorld)
    (hw : w = run reset is) :
    (w.writes ≠ [] → ¬Completes w) ∧ (∀ n, Published (n + 1) ((n + 1) % 2 ^ 64)) ∧
    (∀ q, (w.engines q).retired.length = w.handshakes.count q) ∧
    ∀ k, queues = 2 ^ k →
      (∃ queued, w.writes ++ queued = entries 0 w.handshakes ∧
        queued.length ≤ 2 * queues + 1) ∧
      ∃ n, ∀ more, n ≤ w.awaited more →
        entries 0 w.handshakes <+: (w.run more).writes := by
  have hinv : Inv w := hw ▸ inv_reset.run is
  refine ⟨hinv.not_completes hqueues, published, hinv.retired, ?_⟩
  intro k hk
  have hpow := fifoPtrW_pow hk
  rw [← stored_eq_entries hpow]
  constructor
  · obtain ⟨items, hitems, horder⟩ := hinv.order
    refine ⟨current w.cmpl ++ items, by rw [← append_assoc, horder], ?_⟩
    have hfits := hitems.fits
    have hcur : (current w.cmpl).length ≤ 1 := by
      simp only [current]
      split <;> simp
    rw [hpow, fifoDepth] at hfits
    rw [length_append]
    omega
  · refine ⟨need w.handshakes.length w, fun more hcount => ?_⟩
    have hlen := hinv.writes_of_awaited le_rfl hcount
    obtain ⟨items, _, horder⟩ := (hinv.run more).order
    obtain ⟨hs, hhs⟩ := run_handshakes w more
    rw [hhs, append_assoc] at horder
    refine prefix_of_prefix_length_le (stored_mono w.handshakes hs) ?_ ?_
    · rw [← horder]
      exact prefix_append _ _
    · rw [length_stored]
      exact hlen

def nops : CmplIn :=
  ⟨fun _ => some ⟨0, 0, 0, 0, 0, 0, 0⟩, fun _ _ => false, fun _ _ => false, true,
    true, true⟩

end CmplWorld

end

namespace CmplWorld

abbrev cmplQueues (n : ℕ) : CmplConfig := ⟨n, fun _ => 64⟩

theorem completions_off_by_one_nop :
    letI := cmplQueues 1
    ∃ w : CmplWorld, w = run reset (replicate 7 nops) ∧ w.writes = [⟨64, 0⟩] ∧
      (w.writes ≠ [] → ¬Completes w) :=
  ⟨_, rfl, by decide +kernel, (@completions_off_by_one (cmplQueues 1) (by decide) _ _ rfl).1⟩

/-- After reset the first command that is retired is published as number zero. With three queues the
seventh retirement goes past the end of the queue. -/
theorem first_completion_is_zero :
    letI := cmplQueues 1
    (run reset (replicate 7 nops)).handshakes = [0] ∧
    (run reset (replicate 7 nops)).writes = [⟨64, 0⟩] ∧ entries 1 [0] = [⟨64, 1⟩] ∧
    (@run (cmplQueues 3) reset (replicate 40 nops)).writes[6]? = some ⟨0, 0⟩ := by
  decide +kernel

end CmplWorld

end VortexGpu.Rtl

import VortexGpu.Runs
import Mathlib.Data.Fintype.Card

/-!
# Warp control

The instructions with which a warp changes its own thread mask. `SPLIT` keeps the smaller side of
a branch and saves the mask on the IPDOM stack, `JOIN` goes back for the other side and then
restores the mask, `PRED` drops the threads whose predicate is false. An instruction is processed
once for each packet of its lanes; only the last packet changes the warp. A call that aborts has
no result.
-/

namespace VortexGpu.Simx
open List Option

/-- The set of active threads of a warp of `n` threads. -/
abbrev ThreadMask (n : ℕ) := Finset (Fin n)

variable {n xlen : ℕ}

structure IpdomEntry (n xlen : ℕ) where
  origTmask : ThreadMask n
  elsePC : BitVec xlen
  fallthrough : Bool
deriving DecidableEq

/-- `ipdomStack` has the top first. -/
structure Warp (n xlen : ℕ) where
  active : Bool
  tmask : ThreadMask n
  pc : BitVec xlen
  ipdomStack : List (IpdomEntry n xlen)
deriving DecidableEq

inductive WctlType where
  | split | join | pred
deriving DecidableEq, Repr

/-- A packet of a warp control instruction, with the operands of all threads. -/
structure WctlTrace (n xlen : ℕ) where
  type : WctlType
  isCondNeg : Bool
  pc : BitVec xlen
  eop : Bool
  rs1 : Fin n → ℕ
  rs2 : Fin n → ℕ

namespace ThreadMask

def last (m : ThreadMask n) : Option (Fin n) := (finRange n).reverse.find? fun t => decide (t ∈ m)

def ofWord (v : ℕ) : ThreadMask n := Finset.univ.filter fun t => v.testBit t

variable {m : ThreadMask n} {t : Fin n}

theorem last_mem (h : m.last = some t) : t ∈ m := by
  have hfound := find?_some h
  exact of_decide_eq_true hfound

theorem last_isSome (h : m.Nonempty) : ∃ t, m.last = some t := by
  obtain ⟨t, ht⟩ := h
  apply isSome_iff_exists.mp
  rw [last, find?_isSome]
  exact ⟨t, by simp, decide_eq_true ht⟩

theorem le_last {t' : Fin n} (h : m.last = some t) (ht' : t' ∈ m) : t' ≤ t := by
  obtain ⟨_, before, after, hsplit, hnot⟩ := find?_eq_some_iff_append.mp h
  have hsorted : ((finRange n).reverse).Pairwise (· > ·) := by
    rw [pairwise_reverse]
    exact pairwise_lt_finRange n
  have hmem : t' ∈ (finRange n).reverse := by simp
  rw [hsplit] at hsorted hmem
  rcases mem_append.mp hmem with hbefore | hrest
  · have hno := hnot t' hbefore
    simp [ht'] at hno
  · rcases mem_cons.mp hrest with rfl | hafter
    · exact le_rfl
    · have htail := (pairwise_append.mp hsorted).2.1
      exact le_of_lt (rel_of_pairwise_cons htail hafter)

theorem last_of_max (ht : t ∈ m) (hmax : ∀ t' ∈ m, t' ≤ t) : m.last = some t := by
  obtain ⟨t', ht'⟩ := last_isSome ⟨t, ht⟩
  rw [ht', le_antisymm (hmax t' (last_mem ht')) (le_last ht' ht)]

end ThreadMask

namespace WctlTrace
variable (a : WctlTrace n xlen)

def cond (t : Fin n) : Bool := decide (a.rs1 t % 2 = 1) ^^ a.isCondNeg

section
variable (m : ThreadMask n)

def thenTmask : ThreadMask n := m.filter fun t => a.cond t = true
def elseTmask : ThreadMask n := m.filter fun t => a.cond t = false

def isDivergent : Bool := decide ((a.thenTmask m).Nonempty ∧ (a.elseTmask m).Nonempty)

def firstTmask : ThreadMask n :=
  if (a.thenTmask m).card ≤ (a.elseTmask m).card then a.thenTmask m else a.elseTmask m

def predTmask : Option (ThreadMask n) :=
  if (a.thenTmask m).Nonempty then some (m ∩ a.thenTmask m)
  else m.last.map fun t => .ofWord (a.rs2 t)

end

theorem predTmask_isSome {m : ThreadMask n} (hm : m.Nonempty) :
    ∃ m', a.predTmask m = some m' := by
  unfold predTmask
  split_ifs
  · exact ⟨_, rfl⟩
  · obtain ⟨t, ht⟩ := ThreadMask.last_isSome hm
    exact ⟨_, by rw [ht]; rfl⟩

end WctlTrace

namespace Warp

section
variable (w : Warp n xlen)

def setTmask (m : ThreadMask n) : Warp n xlen :=
  { w with tmask := m, active := w.active && decide m.Nonempty }

section
variable (a : WctlTrace n xlen)

/-- A `SPLIT`, with the value it gives to the threads from the first active one on. -/
def split : Option (Warp n xlen × (Fin n → Option ℕ)) :=
  let stackSize := w.ipdomStack.length
  let dst := fun t => if ∃ t' ∈ w.tmask, t' ≤ t then some stackSize else none
  if a.eop then
    if a.isDivergent w.tmask then
      if stackSize = n - 1 then none
      else some ({ w with ipdomStack := ⟨w.tmask, a.pc + 4, false⟩ :: w.ipdomStack }.setTmask
        (a.firstTmask w.tmask), dst)
    else some (w.setTmask w.tmask, dst)
  else some (w, dst)

def join : Option (Warp n xlen) := do
  let stackPtr := a.rs1 (← w.tmask.last)
  if a.eop then
    if stackPtr ≠ w.ipdomStack.length then
      match w.ipdomStack with
      | [] => none
      | top :: rest =>
        if top.fallthrough then some ({ w with ipdomStack := rest }.setTmask top.origTmask)
        else some ({ w with
          pc := top.elsePC, ipdomStack := { top with fallthrough := true } :: rest }.setTmask
          (top.origTmask \ w.tmask))
    else some (w.setTmask w.tmask)
  else some w

def pred : Option (Warp n xlen) := do
  let next ← a.predTmask w.tmask
  if a.eop then some (w.setTmask next) else some w

def fetched : Warp n xlen := { w with pc := a.pc + 4 }

def process : Option (Warp n xlen) :=
  match a.type with
  | .split => ((w.fetched a).split a).map (·.1)
  | .join => (w.fetched a).join a
  | .pred => (w.fetched a).pred a

end

end

variable {w : Warp n xlen} {a : WctlTrace n xlen} {m : ThreadMask n} {t : Fin n}

theorem setTmask_nonempty (hactive : w.active = true) (hm : m.Nonempty) :
    w.setTmask m = { w with tmask := m } := by
  simp [setTmask, hactive, hm]

section
variable {pc : BitVec xlen} {rest : List (IpdomEntry n xlen)} (heop : a.eop = true)
include heop

theorem split_divergent (htype : a.type = .split) (hdiv : a.isDivergent w.tmask = true)
    (hroom : w.ipdomStack.length ≠ n - 1) : w.process a = some ({ w.fetched a with
      ipdomStack := ⟨w.tmask, a.pc + 4, false⟩ :: w.ipdomStack }.setTmask
        (a.firstTmask w.tmask)) := by
  simp [process, htype, split, heop, hdiv, hroom, fetched]

theorem split_uniform (htype : a.type = .split) (hdiv : a.isDivergent w.tmask = false) :
    w.process a = some ((w.fetched a).setTmask w.tmask) := by
  simp [process, htype, split, heop, hdiv, fetched]

theorem pred_eq (htype : a.type = .pred) (hm : a.predTmask w.tmask = some m) :
    w.process a = some ((w.fetched a).setTmask m) := by
  simp [process, htype, pred, hm, heop, fetched]

variable (htype : a.type = .join) (hlast : w.tmask.last = some t)
include htype hlast

theorem join_uniform (hptr : a.rs1 t = w.ipdomStack.length) :
    w.process a = some ((w.fetched a).setTmask w.tmask) := by
  simp [process, htype, join, hlast, heop, hptr, fetched]

theorem join_back (hptr : a.rs1 t ≠ w.ipdomStack.length)
    (hstack : w.ipdomStack = ⟨m, pc, false⟩ :: rest) :
    w.process a = some
      ({ w with pc := pc, ipdomStack := ⟨m, pc, true⟩ :: rest }.setTmask (m \ w.tmask)) := by
  rw [hstack, List.length_cons] at hptr
  simp [process, htype, fetched, join, hlast, heop, hstack, hptr]

theorem join_restore (hptr : a.rs1 t ≠ w.ipdomStack.length)
    (hstack : w.ipdomStack = ⟨m, pc, true⟩ :: rest) :
    w.process a = some ({ w.fetched a with ipdomStack := rest }.setTmask m) := by
  rw [hstack, List.length_cons] at hptr
  simp [process, htype, fetched, join, hlast, heop, hstack, hptr]

end

theorem process_more (heop : a.eop = false) (hne : w.tmask.Nonempty) :
    w.process a = some (w.fetched a) := by
  obtain ⟨t, ht⟩ := ThreadMask.last_isSome hne
  have ht' : (w.fetched a).tmask.last = some t := ht
  cases htype : a.type with
  | split => simp only [process, htype, split, heop, Bool.false_eq_true, if_false, map_some]
  | join =>
    simp [process, htype, join, ht', heop]
  | pred =>
    obtain ⟨m, hm⟩ := a.predTmask_isSome (m := (w.fetched a).tmask) hne
    simp [process, htype, pred, hm, heop]

end Warp
end VortexGpu.Simx

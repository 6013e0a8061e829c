import VortexGpu.Runs
import Mathlib.Data.Nat.Log
import Mathlib.Algebra.Group.Nat.Defs

/-!
# The reservation cache of the atomic unit

`VxAmoUnit` is the reservation cache of `VX_amo_unit`: a direct-mapped table whose valid bits are
registers and whose payload is a block RAM that is read one stage ahead. `AmoStage` adds the commit
stage of the bank, whose line is the look-ahead address of the cycle before, and the commits since
reset.
-/

namespace VortexGpu.Rtl
open Runs List Bool
open Function (update update_self update_of_ne)

inductive AmoCommit
  | none | lr | sc | amo | store
  deriving DecidableEq

structure AmoSt1 where
  commit : AmoCommit
  hart : ℕ
  line : ℕ
  deriving DecidableEq

class AmoConfig where
  numResEntries : ℕ

section
variable [AmoConfig]

def rsDepth : ℕ := 2 ^ max 1 (Nat.clog 2 AmoConfig.numResEntries)

/-- A payload is the hart and the tag. -/
structure VxAmoUnit where
  rsStore : ℕ → ℕ × ℕ
  rsRdata : ℕ × ℕ
  rdwValid : Bool
  rdwData : ℕ × ℕ
  rsValid : ℕ → Bool

namespace VxAmoUnit
variable (u : VxAmoUnit) (c : AmoSt1)

def rsData : ℕ × ℕ := if u.rdwValid then u.rdwData else u.rsRdata

def lineMatch : Bool := u.rsValid (c.line % rsDepth) && u.rsData.2 == c.line / rsDepth

def resCheck : Bool := u.lineMatch c && u.rsData.1 == c.hart

/-- A store-bearing AMO, an SC that succeeds or a plain store. -/
def resInvalidate : Bool :=
  match c.commit with
  | .none | .lr => false
  | .sc => u.resCheck c
  | .amo | .store => true

def rsClr : Bool :=
  u.resInvalidate c && u.lineMatch c || c.commit == .sc && u.resCheck c

def clock (pipeStall : Bool) (lineN : ℕ) : VxAmoUnit :=
  let en := !pipeStall
  let idx := c.line % rsDepth
  let idxN := lineN % rsDepth
  let wdata := (c.hart, c.line / rsDepth)
  let we := c.commit == .lr && en
  let clr := en && u.rsClr c
  { rsStore := if we then update u.rsStore idx wdata else u.rsStore
    rsRdata := if en then u.rsStore idxN else u.rsRdata
    rdwValid := if en then we && idx == idxN else u.rdwValid
    rdwData := if en then wdata else u.rdwData
    rsValid := if we then update u.rsValid idx true else if clr then update u.rsValid idx false
      else u.rsValid }

end VxAmoUnit

structure AmoStage where
  unit : VxAmoUnit
  st1 : AmoSt1
  log : List AmoSt1

namespace AmoStage

def Reset (s : AmoStage) : Prop := s.unit.rsValid = (fun _ => false) ∧ s.unit.rdwValid = false ∧
    s.log = []

/-- A clock edge: the stage holds while the pipe is stalled, else what it holds commits and `next`
enters. -/
def clock (s : AmoStage) (pipeStall : Bool) (next : AmoSt1) : AmoStage :=
  let unit := s.unit.clock s.st1 pipeStall next.line
  if pipeStall then { s with unit := unit } else ⟨unit, next, s.log ++ [s.st1]⟩

def step (s : AmoStage) (a : Bool × AmoSt1) : Option (AmoStage × Unit) :=
  some (s.clock a.1 a.2, ())

def resCheck (s : AmoStage) : Bool := s.unit.resCheck s.st1

/-- When an LR commits, no other slot holds a reservation of its hart. -/
def Lawful (s : AmoStage) (a : Bool × AmoSt1) : Prop :=
  a.1 = false → s.st1.commit = .lr → ∀ i ≠ s.st1.line % rsDepth,
    s.unit.rsValid i = true → (s.unit.rsStore i).1 ≠ s.st1.hart

end AmoStage

namespace AmoSt1

def Breaks (c : AmoSt1) (h l : ℕ) : Prop :=
  c.line = l ∧ (c.commit = .sc ∧ c.hart = h ∨ c.commit = .amo ∨ c.commit = .store)

/-- `x` has committed, and all that has committed since is as `P` says. -/
def Since (log : List AmoSt1) (x : AmoSt1) (P : AmoSt1 → Prop) : Prop :=
  ∃ before after, log = before ++ x :: after ∧ ∀ c ∈ after, P c

/-- The last LR to the slot of `l` is by `h` to `l`, and nothing after it breaks the reservation. -/
def Held (log : List AmoSt1) (h l : ℕ) : Prop :=
  Since log ⟨.lr, h, l⟩ fun c =>
    (c.commit = .lr → c.line % rsDepth ≠ l % rsDepth) ∧ ¬ c.Breaks h l

def LastLr (log : List AmoSt1) (h l : ℕ) : Prop :=
  Since log ⟨.lr, h, l⟩ fun c => ¬ (c.commit = .lr ∧ c.hart = h)

omit [AmoConfig] in
theorem since_snoc {log : List AmoSt1} {c x : AmoSt1} {P : AmoSt1 → Prop} :
    Since (log ++ [c]) x P ↔ c = x ∨ Since log x P ∧ P c := by
  constructor
  · rintro ⟨before, after, hlog, hafter⟩
    rcases eq_nil_or_concat' after with rfl | ⟨after, d, rfl⟩
    · exact .inl (append_singleton_inj.mp hlog).2
    · rw [← cons_append, ← append_assoc, append_singleton_inj] at hlog
      obtain ⟨rfl, rfl⟩ := hlog
      exact .inr ⟨⟨before, after, rfl, fun d hd => hafter d (mem_append_left _ hd)⟩,
        hafter c (by simp)⟩
  · rintro (rfl | ⟨⟨before, after, rfl, hafter⟩, hc⟩)
    · exact ⟨log, [], rfl, nofun⟩
    · refine ⟨before, after ++ [c], by simp, fun d hd => ?_⟩
      rcases mem_append.mp hd with hd | hd
      · exact hafter d hd
      · exact mem_singleton.mp hd ▸ hc

end AmoSt1

namespace AmoStage
open AmoSt1

/-- A valid entry is a reservation of the log, and the payload that was read ahead is that of the
line. -/
structure Inv (s : AmoStage) : Prop where
  held : ∀ h l, Held s.log h l ↔
    s.unit.rsValid (l % rsDepth) = true ∧ s.unit.rsStore (l % rsDepth) = (h, l / rsDepth)
  ahead : s.unit.rsValid (s.st1.line % rsDepth) = true →
    s.unit.rsData = s.unit.rsStore (s.st1.line % rsDepth)

variable {s : AmoStage}

theorem Reset.inv (h : s.Reset) : s.Inv := by
  obtain ⟨hvalid, _, hlog⟩ := h
  refine ⟨fun h l => ?_, by simp [hvalid]⟩
  simp [hvalid, hlog, Held, Since]

theorem Inv.lineMatch_iff (hi : s.Inv) :
    s.unit.lineMatch s.st1 = true ↔ ∃ h, Held s.log h s.st1.line := by
  simp only [VxAmoUnit.lineMatch, and_eq_true, beq_iff_eq, hi.held]
  constructor
  · rintro ⟨hvalid, htag⟩
    exact ⟨s.unit.rsData.1, hvalid, (hi.ahead hvalid).symm.trans (Prod.ext rfl htag)⟩
  · rintro ⟨h, hvalid, hstore⟩
    exact ⟨hvalid, by rw [hi.ahead hvalid, hstore]⟩

theorem Inv.resCheck_iff (hi : s.Inv) : s.resCheck = true ↔ Held s.log s.st1.hart s.st1.line := by
  simp only [resCheck, VxAmoUnit.resCheck, and_eq_true, beq_iff_eq, hi.lineMatch_iff, hi.held]
  constructor
  · rintro ⟨⟨h, hvalid, hstore⟩, hhart⟩
    rw [hi.ahead hvalid, hstore] at hhart
    exact ⟨hvalid, hhart ▸ hstore⟩
  · rintro ⟨hvalid, hstore⟩
    exact ⟨⟨_, hvalid, hstore⟩, by rw [hi.ahead hvalid, hstore]⟩

theorem Inv.rsClr_iff (hi : s.Inv) :
    s.unit.rsClr s.st1 = true ↔ ∃ h, Held s.log h s.st1.line ∧ s.st1.Breaks h s.st1.line := by
  have hcheck : s.unit.resCheck s.st1 = true ↔ _ := hi.resCheck_iff
  have hmatch := hi.lineMatch_iff
  cases hc : s.st1.commit with
  | none | lr => simp [VxAmoUnit.rsClr, VxAmoUnit.resInvalidate, Breaks, hc]
  | amo | store => simp [VxAmoUnit.rsClr, VxAmoUnit.resInvalidate, Breaks, hc, hmatch]
  | sc =>
    simp only [VxAmoUnit.rsClr, VxAmoUnit.resInvalidate, Breaks, hc, or_eq_true, and_eq_true,
      beq_self_eq_true, hcheck, hmatch]
    constructor
    · rintro (⟨hheld, _⟩ | ⟨_, hheld⟩) <;> exact ⟨_, hheld, by simp⟩
    · rintro ⟨h, hheld, _, ⟨_, rfl⟩ | hamo | hstore⟩
      · exact .inr ⟨trivial, hheld⟩
      · cases hamo
      · cases hstore

end AmoStage

namespace VxAmoUnit
variable {u : VxAmoUnit} {c : AmoSt1}

theorem clock_stall (n : ℕ) : u.clock c true n = u := by
  simp [clock]

theorem rsData_clock (n : ℕ) : (u.clock c false n).rsData =
    (u.clock c false n).rsStore (n % rsDepth) := by
  by_cases hlr : c.commit = .lr
  · by_cases hidx : c.line % rsDepth = n % rsDepth
    · simp [clock, rsData, hlr, hidx]
    · simp [clock, rsData, hlr, hidx, update_of_ne (Ne.symm hidx)]
  · simp [clock, rsData, hlr]

end VxAmoUnit

namespace AmoStage
open AmoSt1
variable {s : AmoStage}

omit [AmoConfig] in
theorem eq_of_slot {d a b : ℕ} (hmod : a % d = b % d) (hdiv : a / d = b / d) : a = b := by
  rw [← Nat.div_add_mod a d, hmod, hdiv, Nat.div_add_mod]

theorem Inv.held_unique (hi : s.Inv) {h h' l l' : ℕ} (hheld : Held s.log h l)
    (hheld' : Held s.log h' l') (hslot : l % rsDepth = l' % rsDepth) : h = h' ∧ l = l' := by
  have hstore := ((hi.held h l).mp hheld).2
  rw [hslot, ((hi.held h' l').mp hheld').2] at hstore
  obtain ⟨hhart, hdiv⟩ := Prod.mk.inj hstore
  exact ⟨hhart.symm, eq_of_slot hslot hdiv.symm⟩

theorem Inv.clock (hi : s.Inv) (pipeStall : Bool) (next : AmoSt1) :
    (s.clock pipeStall next).Inv := by
  cases pipeStall with
  | true =>
    rw [AmoStage.clock, if_pos rfl, VxAmoUnit.clock_stall]
    exact hi
  | false =>
    refine ⟨fun h l => since_snoc.trans ?_, fun _ => VxAmoUnit.rsData_clock _⟩
    change _ ∨ Held s.log h l ∧ _ ↔ _
    by_cases hlr : s.st1.commit = .lr
    · have hkeep : ¬ s.st1.Breaks h l := by simp [Breaks, hlr]
      by_cases hslot : s.st1.line % rsDepth = l % rsDepth
      · -- the LR takes the slot, whatever it held
        have hnew : s.st1 = ⟨.lr, h, l⟩ ↔ s.st1.hart = h ∧
            s.st1.line / rsDepth = l / rsDepth := by
          constructor
          · intro h
            exact ⟨congrArg AmoSt1.hart h, congrArg (AmoSt1.line · / rsDepth) h⟩
          · rintro ⟨hhart, hdiv⟩
            rw [← hlr, ← hhart, ← eq_of_slot hslot hdiv]
        simp [AmoStage.clock, VxAmoUnit.clock, hlr, hslot, hnew]
      · have hnew : s.st1 ≠ ⟨.lr, h, l⟩ := fun h => hslot (by rw [h])
        simp [AmoStage.clock, VxAmoUnit.clock, hlr, hslot, hnew, hkeep, hi.held,
          update_of_ne (Ne.symm hslot)]
    · have hnew : s.st1 ≠ ⟨.lr, h, l⟩ := fun h => hlr (by rw [h])
      have hstore : (s.clock false next).unit.rsStore = s.unit.rsStore := by
        simp [AmoStage.clock, VxAmoUnit.clock, hlr]
      have hvalid : (s.clock false next).unit.rsValid = if s.unit.rsClr s.st1 then
          update s.unit.rsValid (s.st1.line % rsDepth) false else s.unit.rsValid := by
        simp [AmoStage.clock, VxAmoUnit.clock, hlr]
      rw [hstore, hvalid]
      by_cases hclr : s.unit.rsClr s.st1 = true
      · obtain ⟨h', hheld', hbreaks⟩ := hi.rsClr_iff.mp hclr
        rw [if_pos hclr]
        by_cases hslot : l % rsDepth = s.st1.line % rsDepth
        · rw [hslot, update_self]
          refine ⟨fun hh => hh.elim (absurd · hnew) fun ⟨hheld, _, hkeep⟩ => ?_,
            (nomatch ·.1)⟩
          obtain ⟨rfl, rfl⟩ := hi.held_unique hheld hheld' hslot
          exact absurd hbreaks hkeep
        · rw [update_of_ne hslot, ← hi.held]
          refine ⟨fun hh => hh.elim (absurd · hnew) (·.1),
            fun hheld => .inr ⟨hheld, (absurd · hlr), fun hb => ?_⟩⟩
          exact hslot (by rw [hb.1])
      · have hkeep : Held s.log h l → ¬ s.st1.Breaks h l := by
          rintro hheld hbreaks
          obtain rfl := hbreaks.1
          exact hclr (hi.rsClr_iff.mpr ⟨h, hheld, hbreaks⟩)
        rw [if_neg hclr, ← hi.held]
        exact ⟨fun hh => hh.elim (absurd · hnew) (·.1),
          fun hheld => .inr ⟨hheld, (absurd · hlr), hkeep hheld⟩⟩

/-- In a run in which no hart makes a second reservation while it holds one in another slot, a
reservation that is held is that of the hart's last LR. -/
theorem Inv.lastLr_clock (hi : s.Inv)
    (hlast : ∀ h l l', Held s.log h l → LastLr s.log h l' → l' = l)
    {a : Bool × AmoSt1} (ha : Lawful s a) (h l l' : ℕ) (hheld : Held (s.clock a.1 a.2).log h l)
    (hlr : LastLr (s.clock a.1 a.2).log h l') : l' = l := by
  obtain ⟨pipeStall, next⟩ := a
  cases pipeStall with
  | true => exact hlast h l l' hheld hlr
  | false =>
    rcases since_snoc.mp hheld with hc | ⟨hheld, hkeep, _⟩ <;>
      rcases since_snoc.mp hlr with hc' |
      ⟨hlr, hnot⟩
    · exact congrArg AmoSt1.line (hc'.symm.trans hc)
    · exact absurd (by simp [hc]) hnot
    · obtain ⟨hvalid, hstore⟩ := (hi.held h l).mp hheld
      have hcommit : s.st1.commit = .lr := by rw [hc']
      exact absurd (by rw [hstore, hc']) (ha rfl hcommit _ (hkeep hcommit).symm hvalid)
    · exact hlast h l l' hheld hlr

theorem sc_follows_last_lr {t : AmoStage} {as : List (Bool × AmoSt1)} {bs : List Unit}
    (hs : s.Reset) (hrun : run step s as = some (t, bs)) :
    (t.resCheck = true ↔ Held t.log t.st1.hart t.st1.line) ∧
      (Along step Lawful s as → ∀ l, LastLr t.log t.st1.hart l → l ≠ t.st1.line →
        t.resCheck = false) := by
  have hi : t.Inv := by
    refine run_reaches (C := fun _ _ => True) (fun s a s' b hi _ hb =>
      ?_) hs.inv (.of_forall fun _ _ => trivial) hrun
    cases hb
    exact hi.clock a.1 a.2
  refine ⟨hi.resCheck_iff, fun halong l hl hne => ?_⟩
  have hlast :=
    run_reaches (I := fun t => t.Inv ∧ ∀ h l l', Held t.log h l →
      LastLr t.log h l' → l' = l)
    (fun s a s' b hi ha hb => by
      cases hb
      exact ⟨hi.1.clock a.1 a.2, hi.1.lastLr_clock hi.2 ha⟩)
    ⟨hs.inv, fun h l l' hheld => by
      obtain ⟨before, after, hlog, _⟩ := hheld
      simp [hs.2.2] at hlog⟩ halong hrun
  exact eq_false_iff.mpr fun hcheck => hne (hlast.2 _ _ l (hi.resCheck_iff.mp hcheck) hl)

end AmoStage

end

namespace AmoStage
open AmoSt1

def reset : AmoStage :=
  ⟨⟨fun _ => (0, 0), (0, 0), false, (0, 0), fun _ => false⟩, ⟨.none, 0, 0⟩, []⟩

theorem sc_fails_on_other_line :
    letI : AmoConfig := ⟨4⟩
    ∃ t bs, run step reset [(false, ⟨.lr, 0, 1⟩), (false, ⟨.sc, 0, 0⟩)] = some (t, bs) ∧
    t.st1 = ⟨.sc, 0, 0⟩ ∧ t.resCheck = false := by
  have hall :=
    @sc_follows_last_lr ⟨4⟩ reset _ [(false, ⟨.lr, 0, 1⟩),
      (false, ⟨.sc, 0, 0⟩)] _ ⟨rfl, rfl, rfl⟩ rfl
  refine ⟨_, _, rfl, rfl,
    hall.2 ⟨(fun _ h => nomatch h), ?_⟩ 1 ⟨[_], [], rfl, nofun⟩ (by decide)⟩
  rintro _ ⟨⟩
  refine ⟨(fun _ _ _ _ h => nomatch h), ?_⟩
  rintro _ ⟨⟩
  trivial

/-- The table keeps the first of two reservations that one hart makes in different slots. -/
theorem sc_succeeds_on_earlier_line :
    letI : AmoConfig := ⟨4⟩
    ∃ t bs,
      run step reset [(false, ⟨.lr, 0, 0⟩), (true, ⟨.lr, 0, 1⟩), (false, ⟨.lr, 0, 1⟩),
      (false, ⟨.sc, 0, 0⟩)] =
      some (t, bs) ∧ t.st1 = ⟨.sc, 0, 0⟩ ∧ LastLr t.log 0 1 ∧ t.resCheck = true := by
  refine ⟨_, _, rfl, rfl, ⟨[_, _], [], rfl, nofun⟩, by decide⟩

end AmoStage

end VortexGpu.Rtl

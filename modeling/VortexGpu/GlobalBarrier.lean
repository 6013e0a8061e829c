import VortexGpu.Barrier

/-!
# Global barriers

A core that has gathered the arrivals of all its active warps at a global barrier tells the
processor, which collects the cores; the last one makes it resume the warps that wait on each of
them. All of this happens inside the call of the last warp.
-/

namespace VortexGpu.Simx
open Word List Option
open Function (update update_of_ne update_self)

class BarrierProcessorConfig extends BarrierConfig where
  numCores : ℕ

open BarrierConfig BarrierProcessorConfig

/-- The barrier units of the cores, and the cores that have arrived at each global barrier. -/
structure BarrierProcessor where
  cores : ℕ → BarrierUnit
  gbarriers : ℕ → Finset ℕ

def BarrierUnit.gathered (u : BarrierUnit) (barId : ℕ) : BarrierUnit :=
  u.set barId (u.barriers (BarrierUnit.index barId)).gathered

namespace BarrierProcessor
variable [BarrierProcessorConfig]

def reset : BarrierProcessor := ⟨fun _ => .reset, fun _ => ∅⟩

def globalBarrierResume (barId : ℕ) (mask : Finset ℕ) :
    List ℕ → (ℕ → BarrierUnit) × (ℕ → WarpMask) →
    Option ((ℕ → BarrierUnit) × (ℕ → WarpMask))
  | [], s => some s
  | i :: rest, s =>
    if i ∈ mask then do
      let (u, warps) ← (s.1 i).globalResume barId
      globalBarrierResume barId mask rest (update s.1 i u, update s.2 i warps)
    else globalBarrierResume barId mask rest s

def globalBarrierArrive (p : BarrierProcessor) (barId count core : ℕ) :
    Option (BarrierProcessor × (ℕ → WarpMask)) :=
  let gbar := barId % numBarriers
  let mask := insert core (p.gbarriers gbar)
  if mask.card = count then do
    let (cores, woken) ← globalBarrierResume barId mask (range numCores) (p.cores, fun _ => ∅)
    some (⟨cores, update p.gbarriers gbar ∅⟩, woken)
  else some (⟨p.cores, update p.gbarriers gbar mask⟩, fun _ => ∅)

/-- What the barrier unit of a core asks for in a call; `u` is the unit at that time. -/
def serve (p : BarrierProcessor) (core : ℕ) (u : BarrierUnit) :
    BarrierCall → Option (BarrierProcessor × (ℕ → WarpMask))
  | .resume warps =>
    some (⟨update p.cores core u, p.gbarriers⟩, update (fun _ => ∅) core warps)
  | .globalArrive barId count => do
    let (p, woken) ← globalBarrierArrive ⟨update p.cores core u, p.gbarriers⟩ barId count core
    some (⟨update p.cores core ((p.cores core).gathered barId), p.gbarriers⟩, woken)

/-- A barrier instruction of a core: the value it writes, whether it releases its own warp, and the
warps that are resumed on each core. -/
def processBar (activeWarps : ℕ → WarpMask) (p : BarrierProcessor) (core : ℕ) (a : BarTrace) :
    Option (BarrierProcessor × Option ℕ × Bool × (ℕ → WarpMask)) := do
  let (u, r) ← (p.cores core).processBar (activeWarps core) a
  let (p, woken) ← p.serve core u r.call
  some (p, r.dst, r.releaseWarp, woken)

end BarrierProcessor

/-- The id of a global barrier that both the cores and the processor have. -/
structure GlobalId [BarrierProcessorConfig] (barId g : ℕ) : Prop where
  eq : barId = 2 ^ 31 + g
  lt : g < numBarriers
  warps : 0 < numWarps
  room : numBarriers ≤ 2 ^ 31

namespace GlobalId
variable [BarrierProcessorConfig] {barId g g' : ℕ}

section
variable (h : GlobalId barId g)
include h

theorem index : BarrierUnit.index barId = g := by
  have hlt := h.lt
  have hroom := h.room
  rw [h.eq, BarrierUnit.index]
  omega

theorem lt_size : g < BarrierUnit.size :=
  h.lt.trans_le (Nat.le_mul_of_pos_left _ h.warps)

theorem at? (u : BarrierUnit) : u.at? barId = some (u.barriers g) := by
  rw [BarrierUnit.at?, h.index, if_pos h.lt_size]

theorem set (u : BarrierUnit) (b : WarpBarrier) : u.set barId b = ⟨update u.barriers g b⟩ := by
  rw [BarrierUnit.set, h.index]

end

end GlobalId

namespace BarrierProcessor
variable [BarrierProcessorConfig] {barId g : ℕ}

theorem globalBarrierResume_eq (hid : GlobalId barId g) {mask : Finset ℕ} {l : List ℕ}
    (hl : l.Nodup) (s : (ℕ → BarrierUnit) × (ℕ → WarpMask)) :
    globalBarrierResume barId mask l s = some (
      (fun i =>
        if i ∈ l ∧ i ∈ mask then ⟨update (s.1 i).barriers g ((s.1 i).barriers g).advance⟩
        else s.1 i),
      fun i => if i ∈ l ∧ i ∈ mask then ((s.1 i).barriers g).waitMask else s.2 i) := by
  induction l generalizing s with
  | nil => simp [globalBarrierResume]
  | cons j rest ih =>
    obtain ⟨hj, hrest⟩ := nodup_cons.mp hl
    by_cases hmem : j ∈ mask
    · have hresume : (s.1 j).globalResume barId =
          some (⟨update (s.1 j).barriers g ((s.1 j).barriers g).advance⟩,
            ((s.1 j).barriers g).waitMask) := by
        simp [BarrierUnit.globalResume, hid.at?, hid.set]
      rw [globalBarrierResume, if_pos hmem, hresume]
      simp only [bind_eq_bind, bind_some, ih hrest]
      refine congrArg some (Prod.ext (funext fun i => ?_) (funext fun i => ?_))
      all_goals
        by_cases hi : i = j
        · subst hi
          simp [hj, hmem]
        · simp [hi]
    · rw [globalBarrierResume, if_neg hmem, ih hrest]
      have hiff (i : ℕ) : (i ∈ j :: rest ∧ i ∈ mask) ↔ (i ∈ rest ∧ i ∈ mask) := by
        rw [mem_cons]
        constructor
        · rintro ⟨rfl | hi, hm⟩
          · exact absurd hm hmem
          · exact ⟨hi, hm⟩
        · exact fun h => ⟨.inr h.1, h.2⟩
      simp only [hiff]

/-- Only barrier `g` of the cores changes, to `next`. -/
structure Moves (p p' : BarrierProcessor) (g : ℕ) (next : ℕ → WarpBarrier) : Prop where
  barrier : ∀ i, (p'.cores i).barriers g = next i
  others : ∀ i g', g' ≠ g → (p'.cores i).barriers g' = (p.cores i).barriers g'

section Serve
variable {p : BarrierProcessor} {core count slot : ℕ} {b : WarpBarrier}

omit [BarrierProcessorConfig] in
theorem moves_update (p : BarrierProcessor) (core g : ℕ) (b : WarpBarrier)
    (gbarriers : ℕ → Finset ℕ) :
    Moves p ⟨update p.cores core ⟨update (p.cores core).barriers g b⟩, gbarriers⟩ g
      fun i => if i = core then b else (p.cores i).barriers g := by
  constructor
  · intro i
    by_cases hi : i = core
    · subst hi
      simp
    · simp [hi]
  · intro i g' hg
    by_cases hi : i = core
    · subst hi
      simp [hg]
    · simp [hi]

variable (hid : GlobalId barId g) (hslot : barId % numBarriers = slot)
include hid hslot

theorem serve_gathers (hcount : (insert core (p.gbarriers slot)).card ≠ count) :
    ∃ p', p.serve core ⟨update (p.cores core).barriers g b⟩ (.globalArrive barId count) =
        some (p', fun _ => ∅) ∧
      Moves p p' g (fun i => if i = core then b.gathered else (p.cores i).barriers g) ∧
      p'.gbarriers = update p.gbarriers slot (insert core (p.gbarriers slot)) := by
  refine ⟨_, ?_,
    moves_update p core g b.gathered (update p.gbarriers slot (insert core (p.gbarriers slot))),
    rfl⟩
  simp [serve, globalBarrierArrive, hslot, if_neg hcount, BarrierUnit.gathered, hid.set, hid.index,
    Function.update_idem]

def resumed (p : BarrierProcessor) (g core : ℕ) (b : WarpBarrier) (mask : Finset ℕ) (i : ℕ) :
    WarpBarrier :=
  if i = core then b.advance.gathered
  else if i ∈ mask then ((p.cores i).barriers g).advance else (p.cores i).barriers g

theorem serve_completes (hcore : core < numCores) (hmask : ∀ i ∈ p.gbarriers slot, i < numCores)
    (hcount : (insert core (p.gbarriers slot)).card = count) :
    ∃ p', p.serve core ⟨update (p.cores core).barriers g b⟩ (.globalArrive barId count) =
        some (p', fun i => if i = core then b.waitMask
          else if i ∈ p.gbarriers slot then ((p.cores i).barriers g).waitMask else ∅) ∧
      Moves p p' g (resumed p g core b (p.gbarriers slot)) ∧
      p'.gbarriers = update p.gbarriers slot ∅ := by
  have hmem (i : ℕ) : (i ∈ range numCores ∧ i ∈ insert core (p.gbarriers slot)) ↔
      i = core ∨ i ∈ p.gbarriers slot := by
    rw [mem_range, Finset.mem_insert]
    refine and_iff_right_of_imp fun hi => ?_
    rcases hi with rfl | hi
    · exact hcore
    · exact hmask i hi
  refine ⟨⟨fun i =>
    ⟨update (p.cores i).barriers g (resumed p g core b (p.gbarriers slot) i)⟩,
    update p.gbarriers slot ∅⟩, ?_, ⟨?_, ?_⟩, rfl⟩
  · simp only [serve, globalBarrierArrive, hslot, if_pos hcount,
      globalBarrierResume_eq hid nodup_range, hmem,
      bind_eq_bind, bind_some, update_self, true_or, if_true, BarrierUnit.gathered, hid.set,
      hid.index, Function.update_idem]
    refine congrArg some
      (Prod.ext (congrArg (BarrierProcessor.mk · _) (funext fun i => ?_)) (funext fun i => ?_))
    all_goals
      by_cases hi : i = core
      · subst hi
        simp [resumed]
      · by_cases hg : i ∈ p.gbarriers slot <;> simp [resumed, hi, hg]
  · exact fun i => update_self g _ _
  · exact fun i g' hg => update_of_ne hg _ _

end Serve

def joined (b : WarpBarrier) (count wid : ℕ) (isSyncBar : Bool) : WarpBarrier :=
  { b with count := count, arrivalMask := insert wid b.arrivalMask,
           waitMask := if isSyncBar then insert wid b.waitMask else b.waitMask }

def arrival (isSyncBar : Bool) (wid arg1 count : ℕ) : BarTrace :=
  ⟨if isSyncBar then .bar else .barArrive, wid, arg1, count⟩

def token (isSyncBar : Bool) (b : WarpBarrier) : Option ℕ :=
  if isSyncBar then none else some (b.phase % 2)

theorem unit_arrive {arg1 wid count : ℕ} {activeWarps : WarpMask} {u : BarrierUnit}
    (hid : GlobalId (barDecodeId arg1 numBarriers) g) (isSyncBar : Bool) (hcount : count < 2 ^ 31)
    (hevents : (u.barriers g).events = 0) :
    u.processBar activeWarps (arrival isSyncBar wid arg1 count) = some (
      ⟨update u.barriers g (joined (u.barriers g) count wid isSyncBar)⟩,
      ⟨token isSyncBar (u.barriers g),
        if (insert wid (u.barriers g).arrivalMask).card = activeWarps.card then
          .globalArrive (barDecodeId arg1 numBarriers) count else .resume ∅, false⟩) := by
  have hglobal : 2147483648 ≤ barDecodeId arg1 numBarriers := by
    rw [hid.eq]
    omega
  have hplain : (count >>> 31) % 2 ≠ 1 := by
    rw [Nat.shiftRight_eq_div_pow, Nat.div_eq_of_lt hcount]
    norm_num
  cases isSyncBar <;>
    simp [BarrierUnit.processBar, arrival, token, BarrierUnit.getPhase, BarrierUnit.arrive, hid.at?,
      hid.set, hglobal, hplain, WarpBarrier.arriveGlobal, WarpBarrier.park, joined, hevents]

theorem unit_wait {arg1 wid value : ℕ} {activeWarps : WarpMask} {u : BarrierUnit}
    (hid : GlobalId (barDecodeId arg1 numBarriers) g) :
    u.processBar activeWarps ⟨.barWait, wid, arg1, value⟩ = some (
      ⟨update u.barriers g ((u.barriers g).wait value wid).1⟩,
      ⟨none, .resume ∅, !((u.barriers g).wait value wid).2⟩) := by
  simp [BarrierUnit.processBar, BarrierUnit.wait, hid.at?, hid.set]

section Instructions
variable {p : BarrierProcessor} {activeWarps : ℕ → WarpMask}
  {core arg1 wid count value slot : ℕ} {b : WarpBarrier}
  (hid : GlobalId (barDecodeId arg1 numBarriers) g) (hb : (p.cores core).barriers g = b)
include hid hb

theorem processBar_wait :
    ∃ p' woken, p.processBar activeWarps core ⟨.barWait, wid, arg1, value⟩ =
        some (p', none, !(b.wait value wid).2, woken) ∧
      Moves p p' g (fun i => if i = core then (b.wait value wid).1 else (p.cores i).barriers g) ∧
      p'.gbarriers = p.gbarriers ∧ ∀ i, woken i = ∅ := by
  refine ⟨_, update (fun _ => ∅) core ∅, ?_,
    moves_update p core g (b.wait value wid).1 p.gbarriers, rfl, ?_⟩
  · simp [processBar, unit_wait hid, serve, hb]
  · intro i
    by_cases hi : i = core <;> simp [hi]

variable (isSyncBar : Bool) (hcount : count < 2 ^ 31) (hevents : b.events = 0)
include hcount hevents

theorem processBar_stays (hcard : (insert wid b.arrivalMask).card ≠ (activeWarps core).card) :
    ∃ p' woken, p.processBar activeWarps core (arrival isSyncBar wid arg1 count) =
        some (p', token isSyncBar b, false, woken) ∧
      Moves p p' g (fun i =>
        if i = core then joined b count wid isSyncBar else (p.cores i).barriers g) ∧
      p'.gbarriers = p.gbarriers ∧ ∀ i, woken i = ∅ := by
  subst hb
  refine ⟨_, update (fun _ => ∅) core ∅, ?_,
    moves_update p core g (joined _ count wid isSyncBar) p.gbarriers, rfl, ?_⟩
  · simp [processBar, unit_arrive hid isSyncBar hcount hevents, if_neg hcard, serve]
  · intro i
    by_cases hi : i = core <;> simp [hi]

variable (hslot : barDecodeId arg1 numBarriers % numBarriers = slot)
  (hcard : (insert wid b.arrivalMask).card = (activeWarps core).card)
include hslot hcard

theorem processBar_gathers (hcores : (insert core (p.gbarriers slot)).card ≠ count) :
    ∃ p' woken, p.processBar activeWarps core (arrival isSyncBar wid arg1 count) =
        some (p', token isSyncBar b, false, woken) ∧
      Moves p p' g (fun i => if i = core then (joined b count wid isSyncBar).gathered
        else (p.cores i).barriers g) ∧
      p'.gbarriers = update p.gbarriers slot (insert core (p.gbarriers slot)) ∧ ∀ i,
        woken i = ∅ := by
  subst hb
  obtain ⟨p', hserve, hmoves, hgbarriers⟩ := serve_gathers hid hslot hcores
  refine ⟨p', fun _ => ∅, ?_, hmoves, hgbarriers, fun _ => rfl⟩
  simp [processBar, unit_arrive hid isSyncBar hcount hevents, if_pos hcard, hserve]

theorem processBar_completes (hcore : core < numCores)
    (hmask : ∀ i ∈ p.gbarriers slot, i < numCores)
    (hcores : (insert core (p.gbarriers slot)).card = count) :
    ∃ p' woken, p.processBar activeWarps core (arrival isSyncBar wid arg1 count) =
        some (p', token isSyncBar b, false, woken) ∧
      Moves p p' g (resumed p g core (joined b count wid isSyncBar) (p.gbarriers slot)) ∧
      p'.gbarriers = update p.gbarriers slot ∅ ∧
      ∀ i, woken i = if i = core then (joined b count wid isSyncBar).waitMask
        else if i ∈ p.gbarriers slot then ((p.cores i).barriers g).waitMask else ∅ := by
  subst hb
  obtain ⟨p', hserve, hmoves, hgbarriers⟩ := serve_completes hid hslot hcore hmask hcores
  refine ⟨p', _, ?_, hmoves, hgbarriers, fun _ => rfl⟩
  simp [processBar, unit_arrive hid isSyncBar hcount hevents, if_pos hcard, hserve]

end Instructions

end BarrierProcessor

end VortexGpu.Simx

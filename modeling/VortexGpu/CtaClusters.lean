import VortexGpu.CtaDispatcher

/-!
# Clusters on the cores of a processor

All dispatchers take their CTAs from one kernel management unit. The first CTA of a cluster
is admitted only when the slots of the whole cluster are free, and the others are meant to
follow it into these slots. The unit hands the next CTA to whichever dispatcher asks, so this
holds for the schedules in which nobody asks between two CTAs of another core's cluster.
-/

namespace VortexGpu.Simx
open Word MixedRadix Runs CtaDispatcher CoreConfig

/-- A CTA with the core and the slot it was admitted to, and its number in the walk. -/
structure Admission where
  core : ℕ
  index : ℕ
  slot : ℕ
  lmemAddr : ℕ
deriving DecidableEq, Repr

/-- The dispatchers of the cores around one unit. `pulls` counts the CTAs the unit has handed
out, `puller` is the core that took the last one and `lastPull` the number of the last one each
core took; `admitted` lists the admissions so far. -/
structure Processor where
  kmu : Kmu
  cores : ℕ → CtaDispatcher
  pulls : ℕ
  puller : ℕ
  lastPull : ℕ → ℕ
  admitted : List Admission

inductive CoreAction
  | call (core : ℕ) (active : ℕ → Bool)
  | warpDone (core wid : ℕ)

namespace Processor
variable [CoreConfig] (p : Processor)

def takes (core : ℕ) : Bool :=
  (p.cores core).current.isNone && (p.cores core).pending.isNone && p.kmu.running

/-- The admission of a call that leaves the dispatcher at `d` before it hands out a warp. -/
def admission (core : ℕ) (d : CtaDispatcher) : List Admission :=
  match (p.cores core).current, d.current with
  | none, some c =>
    [⟨core, if (p.cores core).pending.isNone then p.pulls else p.lastPull core, c.slot,
      c.lmemAddr⟩]
  | _, _ => []

def step (p : Processor) : CoreAction → Option (Processor × Unit)
  | .call core active => do
    let (loaded, _) ← (p.cores core).load p.kmu
    let (d, kmu, _) ← (p.cores core).step active p.kmu
    some ({ kmu := kmu
            cores := Function.update p.cores core d
            pulls := if p.takes core then p.pulls + 1 else p.pulls
            puller := if p.takes core then core else p.puller
            lastPull := if p.takes core then Function.update p.lastPull core p.pulls else p.lastPull
            admitted := p.admission core loaded ++ p.admitted }, ())
  | .warpDone core wid => do
    let d ← (p.cores core).warpDone wid
    some ({ p with cores := Function.update p.cores core d }, ())

def Orderly (p : Processor) : CoreAction → Prop
  | .call core _ => p.takes core = true → p.kmu.intraOffset ≠ ⟨0, 0, 0⟩ → core = p.puller
  | .warpDone _ _ => True

end Processor

section Admission
variable [CoreConfig] {disp : CtaDispatcher} {r : KmuReq}

theorem usableSlots_bounds (stride : ℕ) :
    0 < usableSlots stride ∧ usableSlots stride ≤ numWarps := by
  have hpos := numWarps_pos
  simp only [usableSlots]
  generalize lmemCapacity / stride = fit
  split_ifs <;> omega

theorem windowFree_eq {slots : ℕ → ℕ} {base k : ℕ} (h : base + k ≤ numWarps) :
    windowFree slots base k = some (decide (∀ i < k, slots (base + i) = 0)) := by
  induction k generalizing base with
  | zero => simp [windowFree]
  | succ k ih =>
    rw [windowFree, if_neg (by omega)]
    by_cases hzero : slots base = 0
    · rw [if_neg (by simp [hzero]), ih (by omega)]
      congr 2
      apply propext
      constructor
      · intro hall i hi
        cases i with
        | zero => exact hzero
        | succ i =>
          have hslot := hall i (by omega)
          rwa [add_assoc, add_comm 1 i] at hslot
      · intro hall i hi
        have hslot := hall (i + 1) (by omega)
        rwa [add_comm i 1, ← add_assoc] at hslot
    · rw [if_pos hzero]
      have hnot : ¬∀ i < k + 1, slots (base + i) = 0 := fun hall => hzero (hall 0 (by omega))
      rw [decide_eq_false hnot]

theorem admit_eq {base k : ℕ}
    (hwindow : window r (if usableSlots r.stride ≤ disp.tailSlot then 0 else disp.tailSlot)
      (usableSlots r.stride) = (base, k)) (hle : base + k ≤ numWarps) :
    disp.admitCta r = if ∀ i < k, disp.slotRemWarps (base + i) = 0 then some (disp.place r base)
      else some { disp with
        tailSlot := if usableSlots r.stride ≤ disp.tailSlot then 0 else disp.tailSlot
        pending := some r } := by
  simp [admitCta, hwindow, windowFree_eq hle]

theorem admit_first {K : ℕ} (hfirst : r.isFirstOfCluster = true) (hK : r.clusterProduct = K)
    (hpos : 0 < K) (hfit : K ≤ usableSlots r.stride) :
    (∃ base, disp.admitCta r = some (disp.place r base) ∧ base + K ≤ usableSlots r.stride ∧
      ∀ i < K, disp.slotRemWarps (base + i) = 0) ∨
    ∃ tail, disp.admitCta r = some { disp with tailSlot := tail, pending := some r } := by
  obtain ⟨hM, hMw⟩ := usableSlots_bounds r.stride
  have hlt := numWarps_lt
  generalize htail : (if usableSlots r.stride ≤ disp.tailSlot then 0 else disp.tailSlot) = tail
  have htail_lt : tail < usableSlots r.stride := by
    rw [← htail]
    split_ifs <;> omega
  have hsum : add32 tail K = tail + K := add32_of_lt (by omega)
  have hwindow : window r tail (usableSlots r.stride) =
      (if usableSlots r.stride < tail + K then 0 else tail, K) := by
    simp [window, hfirst, hK, if_neg (ne_of_gt hpos), hsum, min_eq_left hfit]
  generalize hbase : (if usableSlots r.stride < tail + K then 0 else tail) = base at hwindow
  have hbase_le : base + K ≤ usableSlots r.stride := by
    rw [← hbase]
    split_ifs <;> omega
  rw [← htail] at hwindow
  have hadm := admit_eq hwindow (by omega)
  by_cases hfree : ∀ i < K, disp.slotRemWarps (base + i) = 0
  · rw [if_pos hfree] at hadm
    exact .inl ⟨base, hadm, hbase_le, hfree⟩
  · rw [if_neg hfree] at hadm
    exact .inr ⟨_, hadm⟩

theorem admit_next (hfirst : r.isFirstOfCluster = false)
    (htail : disp.tailSlot < usableSlots r.stride) (hfree : disp.slotRemWarps disp.tailSlot = 0) :
    disp.admitCta r = some (disp.place r disp.tailSlot) := by
  obtain ⟨_, hMw⟩ := usableSlots_bounds r.stride
  have hwindow : window r (if usableSlots r.stride ≤ disp.tailSlot then 0 else disp.tailSlot)
      (usableSlots r.stride) = (disp.tailSlot, 1) := by
    rw [if_neg (by omega)]
    simp [window, hfirst]
  have hadm := admit_eq hwindow (by omega)
  rw [if_pos] at hadm
  · exact hadm
  · intro i hi
    obtain rfl : i = 0 := by omega
    exact hfree

end Admission

structure Clustered [CoreConfig] (d : Descriptor) : Prop where
  cluster : 0 < d.clusterDim.x ∧ 0 < d.clusterDim.y ∧ 0 < d.clusterDim.z
  fits : d.clusterSize ≤ usableSlots d.stride

def Descriptor.clusterDims (d : Descriptor) : List ℕ :=
  [d.clusterDim.x, d.clusterDim.y, d.clusterDim.z]

def Dim3.toList (o : Dim3) : List ℕ := [o.x, o.y, o.z]

namespace Clustered

theorem prod_dims (d : Descriptor) : d.clusterDims.prod = d.clusterSize := by
  simp only [Descriptor.clusterDims, List.prod_cons, List.prod_nil, Descriptor.clusterSize]
  ring

variable [CoreConfig] {d : Descriptor}

section
variable (h : Clustered d)
include h

theorem size_pos : 0 < d.clusterSize :=
  mul_pos (mul_pos h.cluster.1 h.cluster.2.1) h.cluster.2.2

theorem size_lt : d.clusterSize < 2 ^ 31 := by
  have hfit := h.fits
  have hle := (usableSlots_bounds d.stride).2
  have hlt := numWarps_lt
  omega

theorem dims_le :
    d.clusterDim.x ≤ d.clusterSize ∧ d.clusterDim.y ≤ d.clusterSize ∧
    d.clusterDim.z ≤ d.clusterSize := by
  obtain ⟨hx, hy, hz⟩ := h.cluster
  refine ⟨?_, ?_, ?_⟩
  · exact (Nat.le_mul_of_pos_right _ hy).trans (Nat.le_mul_of_pos_right _ hz)
  · exact (Nat.le_mul_of_pos_left _ hx).trans (Nat.le_mul_of_pos_right _ hz)
  · exact Nat.le_mul_of_pos_left _ (mul_pos hx hy)

theorem clusterProduct_eq {r : KmuReq} (hr : r.desc = d) : r.clusterProduct = d.clusterSize := by
  subst hr
  have hlt := h.size_lt
  exact KmuReq.clusterProduct_eq h.cluster.2.2 (by omega)

theorem dims_pos : ∀ c ∈ d.clusterDims, 0 < c := by
  intro c hc
  simp only [Descriptor.clusterDims, List.mem_cons, List.not_mem_nil, or_false] at hc
  rcases hc with rfl | rfl | rfl
  · exact h.cluster.1
  · exact h.cluster.2.1
  · exact h.cluster.2.2

theorem advance_offset {k : Kmu} {n : ℕ} (hk : k.desc = d)
    (hn : k.intraOffset.toList = digits d.clusterDims n) :
    k.advance.intraOffset.toList = digits d.clusterDims (n + 1) := by
  have hprod : 0 < d.clusterDims.prod := by
    rw [prod_dims]
    exact h.size_pos
  have hnext := next_digits h.dims_pos (Nat.mod_lt n hprod)
  have hwrap : digits d.clusterDims (n % d.clusterDims.prod + 1) =
      digits d.clusterDims (n + 1) := by
    rw [← digits_mod, Nat.mod_add_mod, digits_mod]
  have hlt := digits_lt h.dims_pos n
  rw [digits_mod, ← hn, hwrap] at hnext
  rw [← hn] at hlt
  have hfst : (next d.clusterDims k.intraOffset.toList).1 = digits d.clusterDims (n + 1) := by
    rw [hnext]
  rw [← hfst]
  obtain ⟨hx, hy, hz⟩ := h.dims_le
  have hsize := h.size_lt
  simp only [Dim3.toList, Descriptor.clusterDims, List.forall₂_cons, List.forall₂_nil_left_iff,
    and_true] at hlt
  have hax : add32 k.intraOffset.x 1 = k.intraOffset.x + 1 := add32_of_lt (by omega)
  have hay : add32 k.intraOffset.y 1 = k.intraOffset.y + 1 := add32_of_lt (by omega)
  have haz : add32 k.intraOffset.z 1 = k.intraOffset.z + 1 := add32_of_lt (by omega)
  simp only [Kmu.advance, hk, hax, hay, haz, Dim3.toList, Descriptor.clusterDims, next]
  by_cases h₁ : k.intraOffset.x + 1 = d.clusterDim.x
  · by_cases h₂ : k.intraOffset.y + 1 = d.clusterDim.y
    · by_cases h₃ : k.intraOffset.z + 1 = d.clusterDim.z
      · have horigin : ∀ k : Kmu, k.advanceOrigin.intraOffset = k.intraOffset := by
          intro k
          simp only [Kmu.advanceOrigin]
          split_ifs <;> rfl
        simp [h₁, h₂, h₃, horigin]
      · simp [h₁, h₂, h₃]
    · simp [h₁, h₂]
  · simp [h₁]

theorem first_iff {k : Kmu} {n : ℕ} (hn : k.intraOffset.toList = digits d.clusterDims n) :
    k.intraOffset = ⟨0, 0, 0⟩ ↔ n % d.clusterSize = 0 := by
  have hprod : 0 < d.clusterDims.prod := by
    rw [prod_dims]
    exact h.size_pos
  rw [← prod_dims, ← digits_eq_zero_iff hprod, ← hn]
  have hzero : digits d.clusterDims 0 = [0, 0, 0] := by
    rw [digits_zero]
    rfl
  rw [hzero]
  cases hk : k.intraOffset
  simp [Dim3.toList]

end

end Clustered

end VortexGpu.Simx

import Mathlib.Data.Nat.Log
import VortexGpu.CtaDispatcher

/-!
# The kernel management unit in hardware

The hardware walks the same grid with registers of the widths of the core. The block index and the
first-of-cluster flag have registers of their own. The two are related by a simulation: one clock
with `ready` is one step of the simulator's unit, and one without changes nothing.
-/

namespace VortexGpu.Rtl
open Word Simx Nat CoreConfig

def nwWidth [CoreConfig] : ℕ := max 1 (clog 2 numWarps)

/-- The registers of the unit: the programmed dimensions, the walk and the output. -/
structure VxKmu where
  gridDim : Dim3
  clusterDim : Dim3
  lmemSize : ℕ
  ctaId : ℕ
  groupOrigin : Dim3
  intraOffset : Dim3
  running : Bool
  blockIdx : Dim3
  isFirst : Bool
  clusterSize : ℕ
  alignedLmemSize : ℕ
deriving DecidableEq, Repr

structure Beat where
  ctaId : ℕ
  blockIdx : Dim3
  isFirstOfCluster : Bool
  clusterSize : ℕ
  stride : ℕ
deriving DecidableEq, Repr

namespace VxKmu
variable [CoreConfig] (s : VxKmu)

def intraNext (i : ℕ) : ℕ := (i + 1) % 2 ^ (nwWidth + 1)

def intraXWrap : Bool := intraNext s.intraOffset.x == s.clusterDim.x
def intraYWrap : Bool := s.intraXWrap && intraNext s.intraOffset.y == s.clusterDim.y
def intraZWrap : Bool := s.intraYWrap && intraNext s.intraOffset.z == s.clusterDim.z

def originNext : Dim3 :=
  ⟨add32 s.groupOrigin.x s.clusterDim.x, add32 s.groupOrigin.y s.clusterDim.y,
    add32 s.groupOrigin.z s.clusterDim.z⟩

def gridNonempty : Bool := s.gridDim.x != 0 && s.gridDim.y != 0 && s.gridDim.z != 0

def originAdvance : Dim3 × Bool :=
  let n := s.originNext
  if n.x = s.gridDim.x then
    if n.y = s.gridDim.y then
      if n.z = s.gridDim.z then (⟨0, 0, 0⟩, true) else (⟨0, 0, n.z⟩, false)
    else (⟨0, n.y, s.groupOrigin.z⟩, false)
  else (⟨n.x, s.groupOrigin.y, s.groupOrigin.z⟩, false)

def offsetAdvance : Dim3 where
  x := if s.intraXWrap then 0 else intraNext s.intraOffset.x
  y := if s.intraXWrap then
      if s.intraYWrap then 0 else intraNext s.intraOffset.y
    else s.intraOffset.y
  z := if s.intraYWrap then
      if s.intraZWrap then 0 else intraNext s.intraOffset.z
    else s.intraOffset.z

def blockAdvance : Dim3 :=
  let o := s.groupOrigin
  let n := s.originNext
  if s.intraZWrap then
    if n.x = s.gridDim.x then
      if n.y = s.gridDim.y then ⟨0, 0, if n.z = s.gridDim.z then 0 else n.z⟩
      else ⟨0, n.y, o.z⟩
    else ⟨n.x, o.y, o.z⟩
  else
    { x := if s.intraXWrap then o.x else add32 o.x (intraNext s.intraOffset.x)
      y := if s.intraXWrap then
          if s.intraYWrap then o.y else add32 o.y (intraNext s.intraOffset.y)
        else s.blockIdx.y
      z := if s.intraYWrap then add32 o.z (intraNext s.intraOffset.z) else s.blockIdx.z }

def constants : VxKmu :=
  { s with
    clusterSize := s.clusterDim.x * s.clusterDim.y * s.clusterDim.z % 2 ^ (nwWidth + 1)
    alignedLmemSize := (s.lmemSize + 63) % 2 ^ (lmemLogSize + 1) &&&
      (2 ^ (lmemLogSize + 1) - 1 - 63 % 2 ^ (lmemLogSize + 1)) }

def fireAdvance : VxKmu :=
  { s with
    ctaId := add32 s.ctaId 1
    intraOffset := s.offsetAdvance
    groupOrigin := if s.intraZWrap then s.originAdvance.1 else s.groupOrigin
    running := if s.intraZWrap && s.originAdvance.2 then false else s.running
    isFirst := s.intraZWrap
    blockIdx := s.blockAdvance }

def clock (start ready : Bool) : VxKmu :=
  let c := s.constants
  if start then
    { c with running := s.gridNonempty, ctaId := 0, groupOrigin := ⟨0, 0, 0⟩,
             intraOffset := ⟨0, 0, 0⟩, blockIdx := ⟨0, 0, 0⟩, isFirst := true }
  else if s.running && ready then c.fireAdvance
  else c

def beat (ready : Bool) : Option Beat :=
  if s.running && ready then
    some ⟨s.ctaId, s.blockIdx, s.isFirst, s.clusterSize, s.alignedLmemSize⟩
  else none

/-- The clocks after the start, one for each value of `ready`, and the transfers made. -/
def clocks : VxKmu → List Bool → VxKmu × List Beat
  | s, [] => (s, [])
  | s, ready :: readys =>
    let (t, beats) := clocks (s.clock false ready) readys
    (t, (s.beat ready).toList ++ beats)

/-- The unit holds a descriptor, cut to the widths of its registers. -/
def Programmed (d : Descriptor) : Prop :=
  s.gridDim = ⟨d.gridDim.x % 2 ^ 32, d.gridDim.y % 2 ^ 32, d.gridDim.z % 2 ^ 32⟩ ∧
  s.clusterDim = ⟨d.clusterDim.x % 2 ^ (nwWidth + 1), d.clusterDim.y % 2 ^ (nwWidth + 1),
    d.clusterDim.z % 2 ^ (nwWidth + 1)⟩ ∧
  s.lmemSize = d.lmemSize % 2 ^ (lmemLogSize + 1)

end VxKmu

open VxKmu

def beatOf (r : KmuReq) : Beat :=
  ⟨r.ctaId, r.blockIdx, r.isFirstOfCluster, r.clusterProduct, r.stride⟩

theorem numWarps_le [CoreConfig] : numWarps ≤ 2 ^ nwWidth :=
  calc numWarps ≤ 2 ^ clog 2 numWarps := le_pow_clog (by omega) _
    _ ≤ 2 ^ nwWidth := Nat.pow_le_pow_right (by omega) (le_max_right _ _)

def ClusterFits [CoreConfig] (d : Descriptor) : Prop :=
  (0 < d.clusterDim.x ∧ d.clusterDim.x ≤ numWarps) ∧
    (0 < d.clusterDim.y ∧ d.clusterDim.y ≤ numWarps) ∧
    (0 < d.clusterDim.z ∧ d.clusterDim.z ≤ numWarps)

def GridFits (d : Descriptor) : Prop :=
  (0 < d.gridDim.x ∧ d.gridDim.x < 2 ^ 32) ∧ (0 < d.gridDim.y ∧ d.gridDim.y < 2 ^ 32) ∧
    (0 < d.gridDim.z ∧ d.gridDim.z < 2 ^ 32)

section Steps
variable [CoreConfig] {c : ℕ} {s : VxKmu} {k : Kmu}

theorem dim_mod (hc : c ≤ numWarps) : c % 2 ^ (nwWidth + 1) = c := by
  have hle := numWarps_le
  exact mod_eq_of_lt (by have := numWarps_pos; omega)

/-- The hardware unit and the simulator's unit at the same place of the walk. -/
structure Follows (s : VxKmu) (k : Kmu) : Prop where
  gridDim : s.gridDim = k.desc.gridDim
  clusterDim : s.clusterDim = k.desc.clusterDim
  running : s.running = k.running
  ctaId : s.ctaId = k.ctaId
  origin : s.groupOrigin = k.groupOrigin
  offset : s.intraOffset = k.intraOffset
  block : s.blockIdx = k.request.blockIdx
  first : s.isFirst = k.request.isFirstOfCluster
  offset_lt : k.intraOffset.x < k.desc.clusterDim.x ∧ k.intraOffset.y < k.desc.clusterDim.y ∧
    k.intraOffset.z < k.desc.clusterDim.z
  origin_lt : k.groupOrigin.x < 2 ^ 32 ∧ k.groupOrigin.y < 2 ^ 32 ∧ k.groupOrigin.z < 2 ^ 32

theorem intraNext_eq {i : ℕ} (hi : i < c) (hc : c ≤ numWarps) : intraNext i = i + 1 := by
  exact dim_mod (le_trans hi hc)

theorem add32_next {i : ℕ} (hi : i < c) (hc : c ≤ numWarps) : add32 i 1 = i + 1 := by
  have hlt := numWarps_lt
  exact add32_of_lt (by omega)

omit [CoreConfig] in
theorem add32_zero {a : ℕ} (ha : a < 2 ^ 32) : add32 a 0 = a := add32_of_lt ha

omit [CoreConfig] in
theorem add32_lt (a b : ℕ) : add32 a b < 2 ^ 32 := mod_lt _ (by decide)

omit [CoreConfig] in
theorem Follows.at_origin
    (hc : 0 < k.desc.clusterDim.x ∧ 0 < k.desc.clusterDim.y ∧ 0 < k.desc.clusterDim.z)
    (ho : k.groupOrigin.x < 2 ^ 32 ∧ k.groupOrigin.y < 2 ^ 32 ∧ k.groupOrigin.z < 2 ^ 32)
    (hgrid : s.gridDim = k.desc.gridDim := by rfl)
    (hcluster : s.clusterDim = k.desc.clusterDim := by rfl)
    (hrun : s.running = k.running := by rfl) (hid : s.ctaId = k.ctaId := by rfl)
    (horigin : s.groupOrigin = k.groupOrigin := by rfl) (hs : s.intraOffset =
      ⟨0, 0, 0⟩ := by rfl)
    (hk : k.intraOffset = ⟨0, 0, 0⟩ := by rfl) (hblock : s.blockIdx = k.groupOrigin := by rfl)
    (hfirst : s.isFirst = true := by rfl) : Follows s k := by
  refine ⟨hgrid, hcluster, hrun, hid, horigin, hs.trans hk.symm, ?_, ?_, ?_, ho⟩
  · simp only [hblock, Kmu.request, hk, add32_zero ho.1, add32_zero ho.2.1, add32_zero ho.2.2]
  · simp [hfirst, Kmu.request, hk]
  · rw [hk]
    exact hc

theorem Follows.fire (h : Follows s k) (hc : ClusterFits k.desc) :
    Follows s.fireAdvance { k with ctaId := add32 k.ctaId 1 }.advance := by
  obtain ⟨⟨hcx, hwx⟩, ⟨hcy, hwy⟩, ⟨hcz, hwz⟩⟩ := hc
  obtain ⟨hgrid, hcluster, hrun, hid, horigin, hoffset, hblock, hfirst, ⟨hix, hiy, hiz⟩,
      ⟨hox, hoy, hoz⟩⟩ := h
  have hnx := intraNext_eq hix hwx
  have hny := intraNext_eq hiy hwy
  have hnz := intraNext_eq hiz hwz
  have hax := add32_next hix hwx
  have hay := add32_next hiy hwy
  have haz := add32_next hiz hwz
  obtain ⟨gridDim, clusterDim, lmemSize, ctaId, groupOrigin, intraOffset, running, blockIdx,
      isFirst, clusterSize, alignedLmemSize⟩ := s
  simp only at hgrid hcluster hrun hid horigin hoffset hblock hfirst
  subst hgrid hcluster hrun hid horigin hoffset hblock hfirst
  have hzero : 0 < 2 ^ 32 := by decide
  have hzx := add32_zero hox
  have hzy := add32_zero hoy
  simp only [VxKmu.fireAdvance, offsetAdvance, blockAdvance, originAdvance,
    originNext, intraXWrap, intraYWrap, intraZWrap, Kmu.advance,
    Kmu.advanceOrigin, Kmu.request, hnx, hny, hnz, hax, hay, haz, beq_iff_eq, Bool.and_eq_true]
  by_cases h₁ : k.intraOffset.x + 1 = k.desc.clusterDim.x
  · by_cases h₂ : k.intraOffset.y + 1 = k.desc.clusterDim.y
    · by_cases h₃ : k.intraOffset.z + 1 = k.desc.clusterDim.z
      · by_cases h₄ : add32 k.groupOrigin.x k.desc.clusterDim.x = k.desc.gridDim.x
        · by_cases h₅ : add32 k.groupOrigin.y k.desc.clusterDim.y = k.desc.gridDim.y
          · by_cases h₆ : add32 k.groupOrigin.z k.desc.clusterDim.z = k.desc.gridDim.z
            · simp only [h₁, h₂, h₃, h₄, h₅, h₆, beq_self_eq_true, Bool.and_true,
                if_true, and_self]
              exact .at_origin ⟨hcx, hcy, hcz⟩ ⟨hzero, hzero, hzero⟩
            · simp only [h₁, h₂, h₃, h₄, h₅, h₆, beq_self_eq_true, Bool.and_true,
                if_true, if_false, and_self, and_false, Bool.false_eq_true]
              exact .at_origin ⟨hcx, hcy, hcz⟩ ⟨hzero, hzero, add32_lt _ _⟩
          · simp only [h₁, h₂, h₃, h₄, h₅, beq_self_eq_true, Bool.and_true, if_true,
              if_false, and_self, and_false, Bool.false_eq_true]
            exact .at_origin ⟨hcx, hcy, hcz⟩ ⟨hzero, add32_lt _ _, hoz⟩
        · simp only [h₁, h₂, h₃, h₄, beq_self_eq_true, Bool.and_true, if_true, if_false,
            and_self, and_false, Bool.false_eq_true]
          exact .at_origin ⟨hcx, hcy, hcz⟩ ⟨add32_lt _ _, hoy, hoz⟩
      · simp only [h₁, h₂, h₃, beq_eq_false_iff_ne.mpr h₃, beq_self_eq_true,
          Bool.and_false, if_true, if_false, and_true, true_and, false_and]
        refine ⟨rfl, rfl, rfl, rfl, rfl, rfl, ?_, rfl, ⟨hcx, hcy, ?_⟩, ⟨hox, hoy, hoz⟩⟩
        · simp only [Kmu.request, hzx, hzy]
        · exact lt_of_le_of_ne hiz h₃
    · simp only [h₁, h₂, beq_eq_false_iff_ne.mpr h₂, beq_self_eq_true, Bool.and_false,
        Bool.false_and, if_true, if_false, and_false, false_and]
      refine ⟨rfl, rfl, rfl, rfl, rfl, rfl, ?_, rfl, ⟨hcx, ?_, hiz⟩, ⟨hox, hoy, hoz⟩⟩
      · simp only [Kmu.request, hzx]
      · exact lt_of_le_of_ne hiy h₂
  · simp only [h₁, beq_eq_false_iff_ne.mpr h₁, Bool.false_and, if_false, false_and]
    refine ⟨rfl, rfl, rfl, rfl, rfl, rfl, rfl, rfl, ⟨?_, hiy, hiz⟩, ⟨hox, hoy, hoz⟩⟩
    exact lt_of_le_of_ne hix h₁

def drain (k : Kmu) : ℕ → Kmu × List KmuReq
  | 0 => (k, [])
  | n + 1 => match k.step with
    | none => (k, [])
    | some (k', r) => ((drain k' n).1, r :: (drain k' n).2)

omit [CoreConfig] in
theorem drain_stopped (h : k.running = false) (n : ℕ) : drain k n = (k, []) := by
  cases n with
  | zero => rfl
  | succ n => simp [drain, Kmu.step, h]

/-- The launch constants of the hardware are those the dispatcher forms from the descriptor. -/
structure Settled (s : VxKmu) (d : Descriptor) : Prop where
  fixed : s.constants = s
  clusterSize : ∀ r : KmuReq, r.desc = d → s.clusterSize = r.clusterProduct
  stride : ∀ r : KmuReq, r.desc = d → s.alignedLmemSize = r.stride

theorem Settled.fire {d : Descriptor} (h : Settled s d) : Settled s.fireAdvance d := by
  have hsize := congrArg VxKmu.clusterSize h.fixed
  have hlmem := congrArg alignedLmemSize h.fixed
  simp only [constants] at hsize hlmem
  refine ⟨?_, h.clusterSize, h.stride⟩
  simp only [constants, VxKmu.fireAdvance, hsize, hlmem]

theorem Follows.beat (h : Follows s k) (hs : Settled s k.desc) (hrun : k.running = true) :
    s.beat true = some (beatOf k.request) := by
  simp only [VxKmu.beat, h.running, hrun, Bool.and_self, if_true, h.ctaId, h.block, h.first,
    hs.clusterSize k.request rfl, hs.stride k.request rfl]
  rfl

theorem clocks_follow (readys : List Bool) (h : Follows s k)
    (hc : ClusterFits k.desc) (hs : Settled s k.desc) :
    (clocks s readys).2 = (drain k (readys.count true)).2.map beatOf ∧
      (clocks s readys).1.running = (drain k (readys.count true)).1.running := by
  induction readys generalizing s k with
  | nil => exact ⟨rfl, h.running⟩
  | cons ready readys ih =>
    cases hrun : k.running with
    | false =>
      have hclock : s.clock false ready = s := by
        simp [clock, h.running, hrun, hs.fixed]
      have hbeat : s.beat ready = none := by simp [VxKmu.beat, h.running, hrun]
      have hrest := ih h hc hs
      simp only [drain_stopped hrun] at hrest ⊢
      simpa [clocks, hclock, hbeat, Option.toList_none] using hrest
    | true =>
      cases ready with
      | false =>
        have hclock : s.clock false false = s := by simp [clock, hs.fixed]
        have hbeat : s.beat false = none := by simp [VxKmu.beat]
        rw [List.count_cons_of_ne (by decide)]
        simpa [clocks, hclock, hbeat, Option.toList_none] using ih h hc hs
      | true =>
        have hclock : s.clock false true = s.fireAdvance := by
          simp [clock, h.running, hrun, hs.fixed]
        have hdesc : { k with ctaId := add32 k.ctaId 1 }.advance.desc = k.desc := advance_desc _
        obtain ⟨hfired, hflag⟩ := ih (h.fire hc) (by rw [hdesc]; exact hc)
          (by rw [hdesc]; exact hs.fire)
        have hstep : k.step = some ({ k with ctaId := add32 k.ctaId 1 }.advance, k.request) := by
          simp [Kmu.step, hrun]
        simp only [clocks, hclock, h.beat hs hrun, List.count_cons_self, drain, hstep]
        exact ⟨by simp [hfired], hflag⟩

theorem follows_start (ready : Bool)
    (hp : s.Programmed k.desc) (hgrid : GridFits k.desc) (hc : ClusterFits k.desc)
    (hb : 0 < k.desc.blockSize) : Follows (s.clock true ready) k.start := by
  obtain ⟨hsg, hsc, _⟩ := hp
  obtain ⟨⟨hgx, hlx⟩, ⟨hgy, hly⟩, ⟨hgz, hlz⟩⟩ := hgrid
  obtain ⟨⟨hcx, hwx⟩, ⟨hcy, hwy⟩, ⟨hcz, hwz⟩⟩ := hc
  have hzero : 0 < 2 ^ 32 := by decide
  have hstart : k.start = { k with
      running := true, ctaId := 0, groupOrigin := ⟨0, 0, 0⟩, intraOffset :=
        ⟨0, 0, 0⟩ } := by
    simp only [Kmu.start]
    rw [if_pos ⟨hb, hgx, hgy, hgz, hcx, hcy, hcz⟩]
  rw [mod_eq_of_lt hlx, mod_eq_of_lt hly, mod_eq_of_lt hlz] at hsg
  rw [dim_mod hwx, dim_mod hwy, dim_mod hwz] at hsc
  rw [hstart]
  refine .at_origin ⟨hcx, hcy, hcz⟩ ⟨hzero, hzero, hzero⟩ hsg hsc ?_
  simp [clock, gridNonempty, hsg, ne_of_gt hgx, ne_of_gt hgy, ne_of_gt hgz]

theorem nwWidth_le : 2 ^ (nwWidth + 1) ≤ 2 ^ 32 := by
  have hclog : clog 2 numWarps ≤ 31 := clog_le_of_le_pow (le_of_lt numWarps_lt)
  exact Nat.pow_le_pow_right (by omega) (by unfold nwWidth; omega)

theorem stride_eq {r : KmuReq} (h : r.desc.lmemSize + 63 < 2 ^ (lmemLogSize + 1)) :
    (r.desc.lmemSize % 2 ^ (lmemLogSize + 1) + 63) % 2 ^ (lmemLogSize + 1) &&&
      (2 ^ (lmemLogSize + 1) - 1 - 63 % 2 ^ (lmemLogSize + 1)) = r.stride := by
  have hwidth : 6 ≤ lmemLogSize + 1 := by
    by_contra hlt
    have hpow : 2 ^ (lmemLogSize + 1) ≤ 2 ^ 5 := Nat.pow_le_pow_right (by omega) (by omega)
    omega
  have hle : 2 ^ (lmemLogSize + 1) ≤ 2 ^ 32 :=
    Nat.pow_le_pow_right (by omega) lmemLogSize_lt
  have hmask : 2 ^ (lmemLogSize + 1) - 1 - 63 % 2 ^ (lmemLogSize + 1) =
      2 ^ (lmemLogSize + 1) - 2 ^ 6 := by
    rw [mod_eq_of_lt (by omega : 63 < 2 ^ (lmemLogSize + 1))]
    omega
  rw [mod_eq_of_lt (by omega : r.desc.lmemSize < 2 ^ (lmemLogSize + 1)), mod_eq_of_lt h, hmask,
    land_high h hwidth, KmuReq.stride, Descriptor.stride, add32_of_lt (by omega),
    land_high (by omega) (by omega)]

theorem settled_start {d : Descriptor} (ready : Bool)
    (hp : s.Programmed d) (hc : ClusterFits d) (hsize : d.clusterSize < 2 ^ (nwWidth + 1))
    (hlmem : d.lmemSize + 63 < 2 ^ (lmemLogSize + 1)) : Settled (s.clock true ready) d := by
  obtain ⟨_, hsc, hsl⟩ := hp
  obtain ⟨⟨_, hwx⟩, ⟨_, hwy⟩, ⟨hcz, hwz⟩⟩ := hc
  rw [dim_mod hwx, dim_mod hwy, dim_mod hwz] at hsc
  refine ⟨rfl, ?_, ?_⟩
  · rintro r rfl
    rw [KmuReq.clusterProduct_eq hcz (lt_of_lt_of_le hsize nwWidth_le)]
    simp only [clock, constants, if_true, hsc]
    exact mod_eq_of_lt hsize
  · rintro r rfl
    simp only [clock, constants, if_true, hsl]
    exact stride_eq hlmem

/-- Whatever the ready signal does after the start, the transfers of the hardware are the
steps of the simulator's unit, and both stop together. -/
theorem transfers_eq_steps {s : VxKmu} {k : Kmu} (ready : Bool) (readys : List Bool)
    (hp : s.Programmed k.desc) (hgrid : GridFits k.desc) (hc : ClusterFits k.desc)
    (hb : 0 < k.desc.blockSize) (hsize : k.desc.clusterSize < 2 ^ (nwWidth + 1))
    (hlmem : k.desc.lmemSize + 63 < 2 ^ (lmemLogSize + 1)) :
    (clocks (s.clock true ready) readys).2 =
        (drain k.start (readys.count true)).2.map beatOf ∧
      (clocks (s.clock true ready) readys).1.running =
        (drain k.start (readys.count true)).1.running := by
  have hdesc := start_desc k
  apply clocks_follow readys (follows_start ready hp hgrid hc hb)
  · rw [hdesc]
    exact hc
  · rw [hdesc]
    exact settled_start ready hp hc hsize hlmem

def VxKmu.loaded (d : Descriptor) : VxKmu where
  gridDim := ⟨d.gridDim.x % 2 ^ 32, d.gridDim.y % 2 ^ 32, d.gridDim.z % 2 ^ 32⟩
  clusterDim := ⟨d.clusterDim.x % 2 ^ (nwWidth + 1), d.clusterDim.y % 2 ^ (nwWidth + 1),
    d.clusterDim.z % 2 ^ (nwWidth + 1)⟩
  lmemSize := d.lmemSize % 2 ^ (lmemLogSize + 1)
  ctaId := 0
  groupOrigin := ⟨0, 0, 0⟩
  intraOffset := ⟨0, 0, 0⟩
  running := false
  blockIdx := ⟨0, 0, 0⟩
  isFirst := false
  clusterSize := 1
  alignedLmemSize := 0

end Steps

theorem nwWidth_smallCore : @nwWidth smallCore = 2 := by
  decide +kernel

theorem transfers_eq_steps_sample : letI := smallCore
    (clocks ((loaded (sampleDescriptor 8)).clock true false) [true, false, true]).2 =
      (drain (Kmu.idle (sampleDescriptor 8)).start 2).2.map beatOf :=
  letI := smallCore
  (transfers_eq_steps (k := Kmu.idle (sampleDescriptor 8)) false [true, false, true] ⟨rfl,
    rfl, rfl⟩
    (by unfold GridFits; decide) (by unfold ClusterFits; decide) (by decide)
    (by rw [nwWidth_smallCore]; decide)
    (by decide)).1

/-- A cluster of four by four blocks on a core of four warps: each dimension fits, the number
of blocks does not. -/
def wideCluster : Descriptor :=
  { sampleDescriptor 8 with gridDim := ⟨4, 4, 1⟩, clusterDim := ⟨4, 4, 1⟩ }

/-- More local memory than the register of its size can hold. -/
def wideMemory : Descriptor :=
  { sampleDescriptor 8 with lmemSize := 2 ^ (smallCore.lmemLogSize + 1) }

theorem wide_cluster_differs : letI := smallCore
    (GridFits wideCluster ∧ ClusterFits wideCluster ∧ 0 < wideCluster.blockSize ∧
    (clocks ((loaded wideCluster).clock true false) [true]).2 ≠
      (drain (Kmu.idle wideCluster).start 1).2.map beatOf) ∧
    GridFits wideMemory ∧ ClusterFits wideMemory ∧ 0 < wideMemory.blockSize ∧
    (clocks ((loaded wideMemory).clock true false) [true]).2 ≠
      (drain (Kmu.idle wideMemory).start 1).2.map beatOf := by
  unfold GridFits ClusterFits
  decide +kernel

end VortexGpu.Rtl

import Mathlib.Data.List.Nodup
import VortexGpu.Word
import VortexGpu.MixedRadix
import VortexGpu.Runs

/-!
# The kernel management unit

The unit walks the grid of a launch and hands out one CTA a step. The walk is two
nested ones: the origin of a cluster moves over the grid in steps of the cluster
shape, and the offset moves inside the cluster. Both are X, Y, Z counters, so the
whole walk is a counter with six digits.
-/

namespace VortexGpu.Simx
open Word MixedRadix Runs

structure Dim3 where
  x : ℕ
  y : ℕ
  z : ℕ
deriving DecidableEq, Repr

structure Descriptor where
  PC : ℕ
  entry : ℕ
  param : ℕ
  blockDim : Dim3
  gridDim : Dim3
  lmemSize : ℕ
  blockSize : ℕ
  warpStep : Dim3
  clusterDim : Dim3
deriving DecidableEq, Repr

structure KmuReq where
  desc : Descriptor
  ctaId : ℕ
  blockIdx : Dim3
  isFirstOfCluster : Bool
deriving DecidableEq, Repr

structure Kmu where
  desc : Descriptor
  running : Bool
  ctaId : ℕ
  groupOrigin : Dim3
  intraOffset : Dim3
deriving DecidableEq, Repr

namespace Kmu

def start (k : Kmu) : Kmu :=
  let d := k.desc
  if 0 < d.blockSize ∧ 0 < d.gridDim.x ∧ 0 < d.gridDim.y ∧ 0 < d.gridDim.z ∧
      0 < d.clusterDim.x ∧ 0 < d.clusterDim.y ∧ 0 < d.clusterDim.z then
    { k with
      running := true, ctaId := 0, groupOrigin := ⟨0, 0, 0⟩, intraOffset := ⟨0, 0, 0⟩ }
  else { k with running := false }

def advanceOrigin (k : Kmu) : Kmu :=
  let g := k.desc.gridDim
  let c := k.desc.clusterDim
  let o := k.groupOrigin
  if add32 o.x c.x = g.x then
    if add32 o.y c.y = g.y then
      if add32 o.z c.z = g.z then { k with groupOrigin := ⟨0, 0, 0⟩, running := false }
      else { k with groupOrigin := ⟨0, 0, add32 o.z c.z⟩ }
    else { k with groupOrigin := ⟨0, add32 o.y c.y, o.z⟩ }
  else { k with groupOrigin := ⟨add32 o.x c.x, o.y, o.z⟩ }

def advance (k : Kmu) : Kmu :=
  let c := k.desc.clusterDim
  let i := k.intraOffset
  if add32 i.x 1 = c.x then
    if add32 i.y 1 = c.y then
      if add32 i.z 1 = c.z then { k with intraOffset := ⟨0, 0, 0⟩ }.advanceOrigin
      else { k with intraOffset := ⟨0, 0, add32 i.z 1⟩ }
    else { k with intraOffset := ⟨0, add32 i.y 1, i.z⟩ }
  else { k with intraOffset := ⟨add32 i.x 1, i.y, i.z⟩ }

def request (k : Kmu) : KmuReq where
  desc := k.desc
  ctaId := k.ctaId
  blockIdx := ⟨add32 k.groupOrigin.x k.intraOffset.x, add32 k.groupOrigin.y k.intraOffset.y,
    add32 k.groupOrigin.z k.intraOffset.z⟩
  isFirstOfCluster := k.intraOffset == ⟨0, 0, 0⟩

/-- `none` when there is no CTA left. -/
def step (k : Kmu) : Option (Kmu × KmuReq) :=
  if k.running then some ({ k with ctaId := add32 k.ctaId 1 }.advance, k.request) else none

def issue (k : Kmu) : ℕ → Option (Kmu × List KmuReq)
  | 0 => some (k, [])
  | n + 1 => do
    let (k, req) ← k.step
    let (k, reqs) ← k.issue n
    some (k, req :: reqs)

end Kmu

theorem advance_desc (k : Kmu) : k.advance.desc = k.desc := by
  simp only [Kmu.advance, Kmu.advanceOrigin]
  split_ifs <;> rfl

theorem start_desc (k : Kmu) : k.start.desc = k.desc := by
  simp only [Kmu.start]
  split_ifs <;> rfl

theorem step_request {k k' : Kmu} {r : KmuReq} (h : k.step = some (k', r)) :
    k.running = true ∧ r.desc = k.desc := by
  unfold Kmu.step at h
  split_ifs at h with hrunning
  cases h
  exact ⟨hrunning, rfl⟩

/-- Cluster dimensions that divide the grid, as a launch is checked for. -/
structure Descriptor.Walkable (d : Descriptor) : Prop where
  grid : 0 < d.gridDim.x ∧ 0 < d.gridDim.y ∧ 0 < d.gridDim.z
  cluster : 0 < d.clusterDim.x ∧ 0 < d.clusterDim.y ∧ 0 < d.clusterDim.z
  divides : d.clusterDim.x ∣ d.gridDim.x ∧ d.clusterDim.y ∣ d.gridDim.y ∧
    d.clusterDim.z ∣ d.gridDim.z
  small : d.gridDim.x * d.gridDim.y * d.gridDim.z < 2 ^ 32

namespace Descriptor

def numCtas (d : Descriptor) : ℕ := d.gridDim.x * d.gridDim.y * d.gridDim.z
def clusterSize (d : Descriptor) : ℕ := d.clusterDim.x * d.clusterDim.y * d.clusterDim.z

def radices (d : Descriptor) : List ℕ :=
  [d.clusterDim.x, d.clusterDim.y, d.clusterDim.z, d.gridDim.x / d.clusterDim.x,
    d.gridDim.y / d.clusterDim.y, d.gridDim.z / d.clusterDim.z]

end Descriptor

open Descriptor

def Kmu.place (k : Kmu) : List ℕ → Kmu
  | [ix, iy, iz, qx, qy, qz] =>
    { k with intraOffset := ⟨ix, iy, iz⟩,
             groupOrigin := ⟨k.desc.clusterDim.x * qx, k.desc.clusterDim.y * qy,
               k.desc.clusterDim.z * qz⟩ }
  | _ => k

namespace Descriptor.Walkable
variable {d : Descriptor}

theorem dims_lt (h : d.Walkable) :
    d.gridDim.x < 2 ^ 32 ∧ d.gridDim.y < 2 ^ 32 ∧ d.gridDim.z < 2 ^ 32 := by
  obtain ⟨hx, hy, hz⟩ := h.grid
  have hlt : ∀ a b, a * b = d.gridDim.x * d.gridDim.y * d.gridDim.z → a < 2 ^ 32 := by
    intro a b hab
    have hle := Nat.le_of_dvd (mul_pos (mul_pos hx hy) hz) (Dvd.intro b hab)
    exact hle.trans_lt h.small
  exact ⟨hlt _ _ (mul_assoc _ _ _).symm, hlt _ (d.gridDim.x * d.gridDim.z) (by ring),
    hlt _ (d.gridDim.x * d.gridDim.y) (by ring)⟩

end Descriptor.Walkable

theorem add32_offset {i c g : ℕ} (hi : i < c) (hg : 0 < g) (hdvd : c ∣ g) (hlt : g < 2 ^ 32) :
    add32 i 1 = i + 1 := by
  have hle := Nat.le_of_dvd hg hdvd
  exact add32_of_lt (by omega)

theorem add32_origin {q c g : ℕ} (hq : q < g / c) (hlt : g < 2 ^ 32) (hdvd : c ∣ g)
    (hc : 0 < c) : add32 (c * q) c = c * (q + 1) ∧ (c * (q + 1) = g ↔ q + 1 = g / c) := by
  have hg : c * (g / c) = g := Nat.mul_div_cancel' hdvd
  have hle : c * (q + 1) ≤ c * (g / c) := Nat.mul_le_mul_left c hq
  refine ⟨?_, ?_⟩
  · rw [mul_add, mul_one] at hle ⊢
    exact add32_of_lt (by omega)
  · rw [← hg]
    simp only [Nat.mul_div_cancel_left _ hc, Nat.mul_left_cancel_iff hc]

theorem advance_place {k : Kmu} {ds : List ℕ} (hw : k.desc.Walkable)
    (hv : List.Forall₂ (· < ·) ds k.desc.radices) : (k.place ds).advance =
      { k with running := k.running &&
        !(next k.desc.radices ds).2 }.place (next k.desc.radices ds).1 := by
  obtain ⟨hgx, hgy, hgz⟩ := hw.grid
  obtain ⟨hcx, hcy, hcz⟩ := hw.cluster
  obtain ⟨hdx, hdy, hdz⟩ := hw.divides
  obtain ⟨hlx, hly, hlz⟩ := hw.dims_lt
  simp only [radices, List.forall₂_cons_right_iff, List.forall₂_nil_right_iff] at hv
  obtain ⟨ix, _, hix,
      ⟨iy, _, hiy,
        ⟨iz, _, hiz, ⟨qx, _, hqx, ⟨qy, _, hqy, ⟨qz, _, hqz, rfl, rfl⟩, rfl⟩,
    rfl⟩, rfl⟩, rfl⟩, rfl⟩ := hv
  obtain ⟨hax, hex⟩ := add32_origin hqx hlx hdx hcx
  obtain ⟨hay, hey⟩ := add32_origin hqy hly hdy hcy
  obtain ⟨haz, hez⟩ := add32_origin hqz hlz hdz hcz
  simp only [Kmu.place, Kmu.advance, Kmu.advanceOrigin, radices, next,
    add32_offset hix hgx hdx hlx, add32_offset hiy hgy hdy hly, add32_offset hiz hgz hdz hlz,
    hax, hay, haz, hex, hey, hez]
  by_cases h₁ : ix + 1 = k.desc.clusterDim.x
  · by_cases h₂ : iy + 1 = k.desc.clusterDim.y
    · by_cases h₃ : iz + 1 = k.desc.clusterDim.z
      · by_cases h₄ : qx + 1 = k.desc.gridDim.x / k.desc.clusterDim.x
        · by_cases h₅ : qy + 1 = k.desc.gridDim.y / k.desc.clusterDim.y
          · by_cases h₆ : qz + 1 = k.desc.gridDim.z / k.desc.clusterDim.z
            all_goals simp [h₁, h₂, h₃, h₄, h₅, h₆]
          · simp [h₁, h₂, h₃, h₄, h₅]
        · simp [h₁, h₂, h₃, h₄]
      · simp [h₁, h₂, h₃]
    · simp [h₁, h₂]
  · simp [h₁]

def Kmu.walk (k : Kmu) (n : ℕ) : Kmu :=
  { k with running := decide (n < k.desc.numCtas), ctaId := n }.place (digits k.desc.radices n)

def Descriptor.blockOf (d : Descriptor) : List ℕ → Dim3
  | [ix, iy, iz, qx, qy, qz] =>
    ⟨d.clusterDim.x * qx + ix, d.clusterDim.y * qy + iy, d.clusterDim.z * qz + iz⟩
  | _ => ⟨0, 0, 0⟩

def Descriptor.requestAt (d : Descriptor) (n : ℕ) : KmuReq where
  desc := d
  ctaId := n
  blockIdx := d.blockOf (digits d.radices n)
  isFirstOfCluster := decide (n % d.clusterSize = 0)

namespace Descriptor.Walkable
variable {d : Descriptor}

theorem radices_pos (h : d.Walkable) : ∀ r ∈ d.radices, 0 < r := by
  obtain ⟨hgx, hgy, hgz⟩ := h.grid
  obtain ⟨hcx, hcy, hcz⟩ := h.cluster
  obtain ⟨hdx, hdy, hdz⟩ := h.divides
  intro r hr
  simp only [radices, List.mem_cons, List.not_mem_nil, or_false] at hr
  rcases hr with rfl | rfl | rfl | rfl | rfl | rfl
  · exact hcx
  · exact hcy
  · exact hcz
  · exact Nat.div_pos (Nat.le_of_dvd hgx hdx) hcx
  · exact Nat.div_pos (Nat.le_of_dvd hgy hdy) hcy
  · exact Nat.div_pos (Nat.le_of_dvd hgz hdz) hcz

theorem radices_prod (h : d.Walkable) : d.radices.prod = d.numCtas := by
  obtain ⟨hdx, hdy, hdz⟩ := h.divides
  calc d.radices.prod
      = (d.clusterDim.x * (d.gridDim.x / d.clusterDim.x)) *
          (d.clusterDim.y * (d.gridDim.y / d.clusterDim.y)) *
          (d.clusterDim.z * (d.gridDim.z / d.clusterDim.z)) := by
        simp only [radices, List.prod_cons, List.prod_nil]
        ring
    _ = d.numCtas := by
        rw [Nat.mul_div_cancel' hdx, Nat.mul_div_cancel' hdy, Nat.mul_div_cancel' hdz, numCtas]

theorem axis {c g q i : ℕ} (hdvd : c ∣ g) (hq : q < g / c) (hi : i < c) : c * q + i < g := by
  have hle : c * (q + 1) ≤ c * (g / c) := Nat.mul_le_mul_left c hq
  rw [Nat.mul_div_cancel' hdvd, mul_add, mul_one] at hle
  omega

end Descriptor.Walkable

section Walk
variable {k : Kmu} {n : ℕ}

theorem offset_zero_iff {c : Dim3} (h : 0 < c.x ∧ 0 < c.y ∧ 0 < c.z) (n : ℕ) :
    (⟨n % c.x, n / c.x % c.y, n / c.x / c.y % c.z⟩ : Dim3) = ⟨0, 0, 0⟩ ↔
      n % (c.x * c.y * c.z) = 0 := by
  have hprod : [c.x, c.y, c.z].prod = c.x * c.y * c.z := by
    simp only [List.prod_cons, List.prod_nil]
    ring
  have hpos : 0 < [c.x, c.y, c.z].prod := by
    rw [hprod]
    exact mul_pos (mul_pos h.1 h.2.1) h.2.2
  rw [← hprod, ← digits_eq_zero_iff hpos]
  simp [digits, Dim3.mk.injEq]

section
variable (hw : k.desc.Walkable)
include hw

theorem request_walk (n : ℕ) : (k.walk n).request = k.desc.requestAt n := by
  have hv := digits_lt hw.radices_pos n
  obtain ⟨hdx, hdy, hdz⟩ := hw.divides
  obtain ⟨hlx, hly, hlz⟩ := hw.dims_lt
  have hfirst := offset_zero_iff hw.cluster n
  simp only [radices, digits, List.forall₂_cons, List.forall₂_nil_left_iff, and_true] at hv
  obtain ⟨hix, hiy, hiz, hqx, hqy, hqz⟩ := hv
  simp only [Kmu.walk, Kmu.request, Kmu.place, requestAt, blockOf, radices, digits]
  rw [add32_of_lt ((Descriptor.Walkable.axis hdx hqx hix).trans hlx),
    add32_of_lt ((Descriptor.Walkable.axis hdy hqy hiy).trans hly),
    add32_of_lt ((Descriptor.Walkable.axis hdz hqz hiz).trans hlz)]
  rw [KmuReq.mk.injEq]
  refine ⟨rfl, rfl, rfl, ?_⟩
  rw [Bool.eq_iff_iff, beq_iff_eq, decide_eq_true_iff]
  exact hfirst

theorem step_walk (hn : n < k.desc.numCtas) :
    (k.walk n).step = some (k.walk (n + 1), k.desc.requestAt n) := by
  have hadd : add32 n 1 = n + 1 := add32_of_lt (by
    have hsmall : k.desc.numCtas < 2 ^ 32 := hw.small
    omega)
  have hnext := next_digits hw.radices_pos (hw.radices_prod ▸ hn)
  have hadv := advance_place (k := { k with running := true, ctaId := n + 1 }) hw
    (digits_lt hw.radices_pos n)
  rw [hnext, hw.radices_prod] at hadv
  have hrun : (k.walk n).running = true := by
    simp only [Kmu.walk, radices, digits, Kmu.place]
    exact decide_eq_true hn
  have hid : { k.walk n with ctaId := add32 (k.walk n).ctaId 1 } =
      { k with running := true, ctaId := n + 1 }.place (digits k.desc.radices n) := by
    simp only [Kmu.walk, radices, digits, Kmu.place, hadd, decide_eq_true hn]
  have hlast : (true && !decide (n + 1 = k.desc.numCtas)) = decide (n + 1 < k.desc.numCtas) := by
    rw [Bool.true_and, ← decide_not]
    congr 1
    apply propext
    omega
  unfold Kmu.step
  rw [if_pos hrun, request_walk hw, hid, hadv, hlast]
  rfl

theorem issue_walk (m : ℕ) (hm : n + m ≤ k.desc.numCtas) :
    (k.walk n).issue m = some (k.walk (n + m), (List.range' n m).map k.desc.requestAt) := by
  induction m generalizing n with
  | zero => rfl
  | succ m ih =>
    have hrest := ih (n := n + 1) (by omega)
    rw [Kmu.issue, step_walk hw (by omega)]
    simp only [Option.bind_eq_bind, Option.bind_some, hrest, List.range'_succ, List.map_cons]
    rw [show n + 1 + m = n + (m + 1) by omega]

theorem start_eq_walk (hb : 0 < k.desc.blockSize) : k.start = k.walk 0 := by
  have hpos : 0 < k.desc.numCtas := mul_pos (mul_pos hw.grid.1 hw.grid.2.1) hw.grid.2.2
  unfold Kmu.start
  rw [if_pos ⟨hb, hw.grid.1, hw.grid.2.1, hw.grid.2.2, hw.cluster.1, hw.cluster.2.1,
    hw.cluster.2.2⟩]
  simp [Kmu.walk, radices, digits, Kmu.place, decide_eq_true hpos]

end

end Walk

section Blocks
variable {d : Descriptor}

def Descriptor.Inside (d : Descriptor) (b : Dim3) : Prop :=
  b.x < d.gridDim.x ∧ b.y < d.gridDim.y ∧ b.z < d.gridDim.z

def Descriptor.place (d : Descriptor) (b : Dim3) : List ℕ :=
  [b.x % d.clusterDim.x, b.y % d.clusterDim.y, b.z % d.clusterDim.z,
    b.x / d.clusterDim.x, b.y / d.clusterDim.y, b.z / d.clusterDim.z]

theorem blockOf_place (d : Descriptor) (b : Dim3) : d.blockOf (d.place b) = b := by
  simp only [blockOf, place, Nat.div_add_mod]

theorem place_blockOf {ds : List ℕ} (hv : List.Forall₂ (· < ·) ds d.radices) :
    d.place (d.blockOf ds) = ds := by
  simp only [radices, List.forall₂_cons_right_iff, List.forall₂_nil_right_iff] at hv
  obtain ⟨ix, _, hix,
      ⟨iy, _, hiy, ⟨iz, _, hiz, ⟨qx, _, _, ⟨qy, _, _, ⟨qz, _, _, rfl, rfl⟩, rfl⟩,
    rfl⟩, rfl⟩, rfl⟩, rfl⟩ := hv
  simp only [blockOf, place, block_div_mod hix, block_div_mod hiy, block_div_mod hiz]

theorem inside_blockOf (hw : d.Walkable) (n : ℕ) : d.Inside (d.blockOf (digits d.radices n)) := by
  have hv := digits_lt hw.radices_pos n
  obtain ⟨hdx, hdy, hdz⟩ := hw.divides
  simp only [radices, digits, List.forall₂_cons, List.forall₂_nil_left_iff, and_true] at hv
  obtain ⟨hix, hiy, hiz, hqx, hqy, hqz⟩ := hv
  exact ⟨Descriptor.Walkable.axis hdx hqx hix, Descriptor.Walkable.axis hdy hqy hiy,
    Descriptor.Walkable.axis hdz hqz hiz⟩

theorem place_lt (hw : d.Walkable) {b : Dim3} (hb : d.Inside b) :
    List.Forall₂ (· < ·) (d.place b) d.radices := by
  obtain ⟨hcx, hcy, hcz⟩ := hw.cluster
  obtain ⟨hdx, hdy, hdz⟩ := hw.divides
  obtain ⟨hbx, hby, hbz⟩ := hb
  exact .cons (Nat.mod_lt _ hcx) (.cons (Nat.mod_lt _ hcy) (.cons (Nat.mod_lt _ hcz)
    (.cons (Nat.div_lt_div_of_lt_of_dvd hdx hbx) (.cons (Nat.div_lt_div_of_lt_of_dvd hdy hby)
      (.cons (Nat.div_lt_div_of_lt_of_dvd hdz hbz) .nil)))))

theorem blockOf_injective (hw : d.Walkable) {m n : ℕ} (hm : m < d.numCtas) (hn : n < d.numCtas)
    (h : d.blockOf (digits d.radices m) = d.blockOf (digits d.radices n)) : m = n := by
  have hdigits : digits d.radices m = digits d.radices n := by
    rw [← place_blockOf (digits_lt hw.radices_pos m), h,
      place_blockOf (digits_lt hw.radices_pos n)]
  rw [← hw.radices_prod] at hm hn
  rw [← value_digits hm, hdigits, value_digits hn]

theorem exists_blockOf (hw : d.Walkable) {b : Dim3} (hb : d.Inside b) :
    ∃ n < d.numCtas, d.blockOf (digits d.radices n) = b := by
  obtain ⟨hdigits, hlt⟩ := digits_value (place_lt hw hb)
  rw [hw.radices_prod] at hlt
  exact ⟨value d.radices (d.place b), hlt, by rw [hdigits, blockOf_place]⟩

def Descriptor.originOf (d : Descriptor) (q : ℕ) : Dim3 :=
  ⟨d.clusterDim.x * (q % (d.gridDim.x / d.clusterDim.x)),
    d.clusterDim.y * (q / (d.gridDim.x / d.clusterDim.x) % (d.gridDim.y / d.clusterDim.y)),
    d.clusterDim.z * (q / (d.gridDim.x / d.clusterDim.x) / (d.gridDim.y / d.clusterDim.y) %
      (d.gridDim.z / d.clusterDim.z))⟩

theorem blockOf_cluster (d : Descriptor) (q : ℕ) {i : ℕ} (hi : i < d.clusterSize) :
    d.blockOf (digits d.radices (d.clusterSize * q + i)) =
      ⟨(d.originOf q).x + i % d.clusterDim.x,
        (d.originOf q).y + i / d.clusterDim.x % d.clusterDim.y,
        (d.originOf q).z + i / d.clusterDim.x / d.clusterDim.y⟩ := by
  have hprod : [d.clusterDim.x, d.clusterDim.y, d.clusterDim.z].prod = d.clusterSize := by
    simp only [List.prod_cons, List.prod_nil, clusterSize]
    ring
  obtain ⟨hmod, hdiv⟩ := block_div_mod (q := q) hi
  have hz : i / d.clusterDim.x / d.clusterDim.y % d.clusterDim.z =
      i / d.clusterDim.x / d.clusterDim.y := by
    apply Nat.mod_eq_of_lt
    rw [Nat.div_div_eq_div_mul]
    exact Nat.div_lt_of_lt_mul hi
  have hsplit : d.radices = [d.clusterDim.x, d.clusterDim.y, d.clusterDim.z] ++
      [d.gridDim.x / d.clusterDim.x, d.gridDim.y / d.clusterDim.y, d.gridDim.z / d.clusterDim.z] :=
    rfl
  rw [hsplit, digits_append, ← digits_mod, hprod, hmod, hdiv]
  simp [digits, blockOf, originOf, hz]

end Blocks

/-- The steps of a launch hand out every block of the grid once, cluster by cluster. -/
theorem steps_walk_grid {k : Kmu} (hw : k.desc.Walkable) (hb : 0 < k.desc.blockSize) :
    ∃ t reqs, k.start.issue k.desc.numCtas = some (t, reqs) ∧ t.step = none ∧
      reqs.length = k.desc.numCtas ∧ (reqs.map KmuReq.blockIdx).Nodup ∧
      (∀ b, b ∈ reqs.map KmuReq.blockIdx ↔
        b.x < k.desc.gridDim.x ∧ b.y < k.desc.gridDim.y ∧ b.z < k.desc.gridDim.z) ∧
      (∀ n r, reqs[n]? = some r → r.ctaId = n ∧
        (r.isFirstOfCluster = true ↔ n % k.desc.clusterSize = 0)) ∧
      ∀ q, ∃ o : Dim3, k.desc.clusterDim.x ∣ o.x ∧ k.desc.clusterDim.y ∣ o.y ∧
        k.desc.clusterDim.z ∣ o.z ∧ ∀ i r, i < k.desc.clusterSize →
          reqs[k.desc.clusterSize * q + i]? = some r →
          r.blockIdx = ⟨o.x + i % k.desc.clusterDim.x,
            o.y + i / k.desc.clusterDim.x % k.desc.clusterDim.y,
            o.z + i / k.desc.clusterDim.x / k.desc.clusterDim.y⟩ := by
  have hissue := issue_walk hw (n := 0) k.desc.numCtas (by omega)
  rw [← start_eq_walk hw hb, zero_add, ← List.range_eq_range'] at hissue
  have hget : ∀ n r, ((List.range k.desc.numCtas).map k.desc.requestAt)[n]? = some r →
      n < k.desc.numCtas ∧ r = k.desc.requestAt n := by
    intro n r hr
    rw [List.getElem?_map] at hr
    obtain ⟨m, hm, rfl⟩ := Option.map_eq_some_iff.mp hr
    obtain ⟨hlt, rfl⟩ := List.getElem?_eq_some_iff.mp hm
    rw [List.getElem_range]
    exact ⟨by simpa using hlt, rfl⟩
  refine ⟨_, _, hissue, ?_, by simp, ?_, ?_, ?_, ?_⟩
  · have hstop : (k.walk k.desc.numCtas).running = false := by
      simp only [Kmu.walk, radices, digits, Kmu.place]
      exact decide_eq_false (lt_irrefl _)
    simp [Kmu.step, hstop]
  · rw [List.map_map]
    refine List.Nodup.map_on ?_ List.nodup_range
    intro m hm n hn heq
    exact blockOf_injective hw (List.mem_range.mp hm) (List.mem_range.mp hn) heq
  · intro b
    rw [List.map_map, List.mem_map]
    constructor
    · rintro ⟨n, _, rfl⟩
      exact inside_blockOf hw n
    · intro hin
      obtain ⟨n, hn, hblock⟩ := exists_blockOf hw hin
      exact ⟨n, List.mem_range.mpr hn, hblock⟩
  · intro n r hr
    obtain ⟨_, rfl⟩ := hget n r hr
    exact ⟨rfl, decide_eq_true_iff⟩
  · intro q
    refine ⟨k.desc.originOf q, Nat.dvd_mul_right _ _, Nat.dvd_mul_right _ _,
      Nat.dvd_mul_right _ _, ?_⟩
    intro i r hi hr
    obtain ⟨_, rfl⟩ := hget _ r hr
    exact blockOf_cluster k.desc q hi

def sampleDescriptor (blockSize : ℕ) : Descriptor where
  PC := 0x80000000
  entry := 0x80000100
  param := 0
  blockDim := ⟨8, 1, 1⟩
  gridDim := ⟨4, 2, 1⟩
  lmemSize := 0
  blockSize := blockSize
  warpStep := ⟨4, 0, 0⟩
  clusterDim := ⟨2, 1, 1⟩

theorem sampleDescriptor_walkable (blockSize : ℕ) : (sampleDescriptor blockSize).Walkable :=
  ⟨by simp [sampleDescriptor], by simp [sampleDescriptor], by simp [sampleDescriptor],
    by simp [sampleDescriptor]⟩

def Kmu.idle (d : Descriptor) : Kmu := ⟨d, false, 0, ⟨0, 0, 0⟩, ⟨0, 0, 0⟩⟩

theorem steps_walk_sample :
    ∃ t reqs, (Kmu.idle (sampleDescriptor 8)).start.issue 8 = some (t, reqs) ∧
    t.step = none ∧ reqs.length = 8 := by
  obtain ⟨t, reqs, hissue, hstop, hlen, _⟩ :=
    steps_walk_grid (k := Kmu.idle (sampleDescriptor 8)) (sampleDescriptor_walkable 8) (by decide)
  exact ⟨t, reqs, hissue, hstop, hlen⟩

/-- With an empty block the unit does not start, whatever the grid. -/
theorem empty_block_no_step : (sampleDescriptor 0).Walkable ∧ (sampleDescriptor 0).numCtas = 8 ∧
    (Kmu.idle (sampleDescriptor 0)).start.step = none :=
  ⟨sampleDescriptor_walkable 0, rfl, rfl⟩

end VortexGpu.Simx

import VortexGpu.GfxEdges
import Mathlib.Data.List.Perm.Basic

/-!
# Tile walks of the software rasterizer

`rast_walk_primitive` cuts a tile into quarters down to quads of two by two pixels, drops what lies
outside of an edge and steps the edge values by additions. `gfx_rast_walk_tile_sw` evaluates the
edges at every quad, row by row. Where no edge value overflows, both emit the covered quads.
-/

namespace VortexGpu.Gfx
open Fixed List Prod

abbrev Plane := Edge × ℤ

variable {β : Type} {prim : List Plane} {n x y i j : ℕ}

def evalEdgeFunction (x y : ℕ) (e : Plane) : ℤ :=
  add (add (mulInt e.1.a x) (mulInt e.1.b y)) e.2

def corner (prim : List Plane) (x y : ℕ) : List ℤ := prim.map (evalEdgeFunction x y)

def rejected (edges : List Edge) (values : List ℤ) (n : ℕ) : Bool :=
  (edges.zip values).any fun ev => add ev.2 (shl (calcEdgeExtents ev.1) n) < 0

/-- The walk of a tile of `2 ^ n` pixels a side: what its leaves emit. Coordinates are sums of
`uint32_t` values, reduced where they are used. -/
def rastWalkTile (edges : List Edge) (leaf : ℕ → ℕ → List ℤ → List β) :
    ℕ → ℕ → ℕ → List ℤ → List β
  | n + 2, x, y, values =>
    if rejected edges values (n + 2) then [] else
      let size := 2 ^ (n + 1)
      let right := zipWith (fun e v => add v (shl e.a (n + 1))) edges
      let below := zipWith (fun e v => add v (shl e.b (n + 1))) edges
      rastWalkTile edges leaf (n + 1) x y values ++
      rastWalkTile edges leaf (n + 1) (x + size) y (right values) ++
      (rastWalkTile edges leaf (n + 1) x (y + size) (below values) ++
      rastWalkTile edges leaf (n + 1) (x + size) (y + size) (below (right values)))
  | n, x, y, values => if rejected edges values n then [] else leaf (u32 x) (u32 y) values

def rastWalkPrimitive (prim : List Plane) (leaf : ℕ → ℕ → List ℤ → List β)
    (n x y : ℕ) : List β :=
  rastWalkTile (prim.map fst) leaf n x y (corner prim x y)

def quads (f : ℕ → ℕ → List β) (leaves x y : ℕ) : List β :=
  (range leaves).flatMap fun ly =>
    (range leaves).flatMap fun lx => f (u32 (x + 2 * lx)) (u32 (y + 2 * ly))

/-- The output array has room for `max` quads. -/
def gfxRastWalkTileSw (prim : List Plane) (leaf : ℕ → ℕ → List ℤ → List β)
    (n x y max : ℕ) : List β :=
  (quads (fun qx qy => leaf qx qy (corner prim qx qy)) (2 ^ (n - 1)) x y).take max

/-- What `rast_emit_quad` emits: position and mask, the edge values at the pixels, the primitive. -/
def emit (pid : ℕ) (edges : List Edge) (x y : ℕ) (values : List ℤ) (mask : ℕ) :
    List (ℕ × List (List ℤ) × ℕ) :=
  if mask = 0 then [] else
    [(((y / 2) <<< 18 ||| (x / 2) <<< 4 ||| mask) % 2 ^ 32, (range 4).map fun p =>
      zipWith (fun e v => pixelValue e v (p % 2 : ℕ) (p / 2 : ℕ)) edges values, pid)]

def quadLeaf (s : Scissor) (pid : ℕ) (edges : List Edge) (x y : ℕ) (values : List ℤ) :=
  emit pid edges x y values (rastEmitQuad s x y values edges)

def coveredQuad (s : Scissor) (pid : ℕ) (prim : List Plane) (x y : ℕ) :=
  let edges := prim.map fst
  emit pid edges x y (corner prim x y) (computeQuad s x y (corner prim x y) edges)

/-- The quads of a tile with a pixel inside, found from their pixels alone. -/
def coveredQuads (s : Scissor) (pid : ℕ) (prim : List Plane) := quads (coveredQuad s pid prim)

theorem flatMap_range_double (g : ℕ → List β) (m : ℕ) :
    (range (2 * m)).flatMap g = (range m).flatMap g ++ (range m).flatMap fun i => g (m + i) := by
  rw [two_mul, range_add, flatMap_append, flatMap_map]

theorem quads_double (f : ℕ → ℕ → List β) (m x y : ℕ) : quads f (2 * m) x y ~
    quads f m x y ++ quads f m (x + 2 * m) y ++
      (quads f m x (y + 2 * m) ++ quads f m (x + 2 * m) (y + 2 * m)) := by
  simp only [quads, flatMap_range_double, mul_add, ← add_assoc]
  exact (flatMap_append_perm _ _ _).symm.append (flatMap_append_perm _ _ _).symm

/-- The exact value of an edge at a point. -/
def edgeAt (x y : ℕ) (e : Plane) : ℤ := e.1.a * x + e.1.b * y + e.2

theorem corner_eq (prim : List Plane) (x y : ℕ) :
    corner prim x y = prim.map fun e => int32 (edgeAt x y e) := by
  refine map_congr_left fun e _ => ?_
  simp only [evalEdgeFunction, mulInt, add, int32_add_right, int32_add_left, edgeAt]

theorem int32_congr {z z' : ℤ} (k : ℤ) (h : z = z' + k * 2 ^ 32) : int32 z = int32 z' := by
  rw [h, int32, int32]
  omega

/-- The reduction of the coordinates changes no edge value. -/
theorem corner_u32 (prim : List Plane) (x y : ℕ) :
    corner prim (u32 x) (u32 y) = corner prim x y := by
  simp only [corner_eq]
  refine map_congr_left fun e _ => int32_congr (-(e.1.a * (x / 2 ^ 32) + e.1.b * (y / 2 ^ 32))) ?_
  simp only [edgeAt, u32, Int.natCast_emod, Int.emod_def]
  push_cast
  ring

theorem int32_add_mul (x z k : ℤ) : int32 (x + int32 z * k) = int32 (x + z * k) := by
  refine int32_congr (-((z + 2 ^ 31) / 2 ^ 32 * k)) ?_
  rw [int32, Int.emod_def]
  ring

/-- Additions from corner to corner agree with evaluation, overflow or not. -/
theorem corner_right (k x y : ℕ) : zipWith (fun e v => add v (shl e.a k)) (prim.map fst)
    (corner prim x y) = corner prim (x + 2 ^ k) y := by
  simp only [corner_eq, zipWith_map, zipWith_self, add, shl, int32_add_right,
    int32_add_left, edgeAt]
  refine map_congr_left fun e _ => congrArg int32 ?_
  push_cast
  ring

theorem corner_below (k x y : ℕ) : zipWith (fun e v => add v (shl e.b k)) (prim.map fst)
    (corner prim x y) = corner prim x (y + 2 ^ k) := by
  simp only [corner_eq, zipWith_map, zipWith_self, add, shl, int32_add_right,
    int32_add_left, edgeAt]
  refine map_congr_left fun e _ => congrArg int32 ?_
  push_cast
  ring

/-- No edge value overflows on the tile, its far sides included. -/
def FitsTile (prim : List Plane) (n x y : ℕ) : Prop :=
  ∀ e ∈ prim, ∀ i ≤ 2 ^ n, ∀ j ≤ 2 ^ n, Fits (edgeAt (x + i) (y + j) e)

def Outside (prim : List Plane) (n x y : ℕ) : Prop :=
  ∃ e ∈ prim, ∀ i ≤ 2 ^ n, ∀ j ≤ 2 ^ n, edgeAt (x + i) (y + j) e < 0

theorem FitsTile.sub {k : ℕ} (h : FitsTile prim n x y) (hi : i + 2 ^ k ≤ 2 ^ n)
    (hj : j + 2 ^ k ≤ 2 ^ n) : FitsTile prim k (x + i) (y + j) := by
  intro e he i' hi' j' hj'
  rw [add_assoc, add_assoc]
  exact h e he (i + i') (by omega) (j + j') (by omega)

theorem outside_of_rejected (h : FitsTile prim n x y)
    (hrej : rejected (prim.map fst) (corner prim x y) n = true) : Outside prim n x y := by
  simp only [rejected, corner_eq, zip_map', any_map, any_eq_true, Function.comp,
    decide_eq_true_eq] at hrej
  obtain ⟨e, he, hneg⟩ := hrej
  refine ⟨e, he, fun i hi j hj => ?_⟩
  -- the test is made at the corner where the edge is greatest
  obtain ⟨i₀, hi₀, j₀, hj₀, hle, hmax⟩ : ∃ i₀ ≤ 2 ^ n, ∃ j₀ ≤ 2 ^ n,
      edgeAt (x + i) (y + j) e ≤ edgeAt (x + i₀) (y + j₀) e ∧
      add (int32 (edgeAt x y e)) (shl (calcEdgeExtents e.1) n) =
      int32 (edgeAt (x + i₀) (y + j₀) e) := by
    rw [add, shl, int32_add_right, int32_add_left]
    refine ⟨if 0 ≤ e.1.a then 2 ^ n else 0, by split_ifs <;> simp,
      if 0 ≤ e.1.b then 2 ^ n else 0, by split_ifs <;> simp, ?_, ?_⟩
    · simp only [edgeAt]
      split_ifs <;> push_cast <;> nlinarith
    · simp only [edgeAt, calcEdgeExtents, add]
      split_ifs <;> (try rw [int32_add_mul]) <;> push_cast <;> ring_nf
  rw [hmax, int32_of_fits (h e he i₀ hi₀ j₀ hj₀)] at hneg
  exact hle.trans_lt hneg

section Walks

variable {leaf : ℕ → ℕ → List ℤ → List β} {f : ℕ → ℕ → List β}
  (hleaf : ∀ x y, FitsTile prim 1 x y →
    leaf (u32 x) (u32 y) (corner prim x y) = f (u32 x) (u32 y))
  (hout : ∀ x y, FitsTile prim 1 x y → Outside prim 1 x y → f (u32 x) (u32 y) = [])
include hleaf

theorem gfxRastWalkTileSw_eq (h : FitsTile prim (n + 1) x y) (max : ℕ) :
    gfxRastWalkTileSw prim leaf (n + 1) x y max = (quads f (2 ^ n) x y).take max := by
  refine congrArg (take max) (flatMap_congr fun ly hly => flatMap_congr fun lx hlx => ?_)
  rw [mem_range, Nat.add_sub_cancel] at hly hlx
  simp only [corner_u32]
  exact hleaf _ _ (h.sub (by omega) (by omega))

include hout

theorem rastWalkPrimitive_perm (h : FitsTile prim (n + 1) x y) :
    rastWalkPrimitive prim leaf (n + 1) x y ~ quads f (2 ^ n) x y := by
  induction n generalizing x y with
  | zero =>
    simp only [rastWalkPrimitive, rastWalkTile, hleaf x y h, quads, pow_zero, range_one,
      flatMap_singleton, mul_zero, add_zero]
    split_ifs with hrej
    · rw [hout x y h (outside_of_rejected h hrej)]
    · exact .refl _
  | succ n ih =>
    have hpow : 2 ^ (n + 1) = 2 * 2 ^ n := pow_succ' 2 n
    rw [rastWalkPrimitive, rastWalkTile]
    split_ifs with hrej
    · -- every quad of the tile is outside of the edge that rejects it
      obtain ⟨e, he, hneg⟩ := outside_of_rejected h hrej
      refine .of_eq (flatMap_eq_nil_iff.mpr fun ly hly => flatMap_eq_nil_iff.mpr fun lx hlx =>
        ?_).symm
      rw [mem_range] at hly hlx
      refine hout _ _ (h.sub (by omega) (by omega)) ⟨e, he, fun i hi j hj => ?_⟩
      rw [add_assoc, add_assoc]
      exact hneg _ (by omega) _ (by omega)
    · simp only [corner_right, corner_below]
      have hdouble := quads_double f (2 ^ n) x y
      rw [← hpow] at hdouble
      refine .trans (.append (.append ?_ ?_) (.append ?_ ?_)) hdouble.symm
      · exact ih (h.sub (i := 0) (j := 0) (by omega) (by omega))
      · exact ih (h.sub (j := 0) (by omega) (by omega))
      · exact ih (h.sub (i := 0) (by omega) (by omega))
      · exact ih (h.sub (by omega) (by omega))

end Walks

theorem computeQuad_outside (s : Scissor) (qx qy : ℕ) (h : FitsTile prim 1 x y)
    (hout : Outside prim 1 x y) : computeQuad s qx qy (corner prim x y) (prim.map fst) = 0 := by
  obtain ⟨e, he, hneg⟩ := hout
  refine foldlRecOn (motive := (· = 0)) (range 4) _ rfl fun mask hmask p hp => ?_
  rw [mem_range] at hp
  have hfits := h e he (p % 2) (by omega) (p / 2) (by omega)
  have hval := hneg (p % 2) (by omega) (p / 2) (by omega)
  have hpixel : pixelValue e.1 (int32 (edgeAt x y e)) (p % 2 : ℕ) (p / 2 : ℕ) =
      edgeAt (x + p % 2) (y + p / 2) e := by
    rw [← int32_of_fits hfits, pixelValue_eq, add_assoc, int32_add_left]
    simp only [edgeAt]
    push_cast
    ring_nf
  rw [if_neg, hmask]
  rw [Bool.and_eq_true, corner_eq, zip_map', all_map, all_eq_true]
  refine fun hall => absurd (hall.1 e he) ?_
  simp only [Function.comp, hpixel, inner]
  split_ifs <;> simp only [decide_eq_true_eq] <;> omega

theorem rastWalks_covered (s : Scissor) (pid : ℕ) (h : FitsTile prim (n + 1) x y) :
    rastWalkPrimitive prim (quadLeaf s pid (prim.map fst)) (n + 1) x y ~ coveredQuads s pid prim
      (2 ^ n) x y ∧ ∀ max,
        gfxRastWalkTileSw prim (quadLeaf s pid (prim.map fst)) (n + 1) x y max =
      (coveredQuads s pid prim (2 ^ n) x y).take max := by
  have hleaf : ∀ x y, FitsTile prim 1 x y →
      quadLeaf s pid (prim.map fst) (u32 x) (u32 y) (corner prim x y) =
        coveredQuad s pid prim (u32 x) (u32 y) := by
    intro x y hfits
    rw [quadLeaf, rastEmitQuad, coveredQuad, corner_u32]
    split_ifs with hrej
    · rw [computeQuad_outside s _ _ hfits (outside_of_rejected hfits hrej)]
    · rfl
  refine ⟨rastWalkPrimitive_perm (f := coveredQuad s pid prim) hleaf (fun x y hfits hout => ?_) h,
    gfxRastWalkTileSw_eq (f := coveredQuad s pid prim) hleaf h⟩
  rw [coveredQuad, corner_u32, computeQuad_outside s _ _ hfits hout, emit, if_pos rfl]

theorem rastWalks_covered_triangle :
    let prim : List Plane := [(⟨1, 0⟩, 0), (⟨0, 1⟩, 0), (⟨-1, -1⟩, 5)]
    let s : Scissor := ⟨0, 100, 0, 100⟩
    rastWalkPrimitive prim (quadLeaf s 7 (prim.map fst)) 3 0 0 ~ coveredQuads s 7 prim 4 0 0 ∧
    (coveredQuads s 7 prim 4 0 0).length = 6 :=
  ⟨(rastWalks_covered ⟨0, 100, 0, 100⟩ 7 (n := 2) (by unfold FitsTile Fits; decide)).1,
    by decide⟩

end VortexGpu.Gfx

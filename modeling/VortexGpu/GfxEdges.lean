import Mathlib.Tactic.IntervalCases
import Mathlib.Tactic.Linarith
import Mathlib.Tactic.Ring

/-!
# Edge tests of the rasterizers

Edge values are numbers of type `fixed_t<16>`, kept as 32-bit integers. A sample on an edge belongs
to the primitive for which the edge is a top or left edge. For the sample of a pixel the test of an
edge and of its negation exclude each other and leave nothing out. The values at the four
sub-samples are rounded products; there a sample near the edge can be outside of both primitives.
-/

namespace VortexGpu.Gfx
open List

def int32 (z : ℤ) : ℤ := (z + 2 ^ 31) % 2 ^ 32 - 2 ^ 31

namespace Fixed

def add (x y : ℤ) : ℤ := int32 (x + y)
def mulInt (x : ℤ) (r : ℤ) : ℤ := int32 (x * r)
def shl (x : ℤ) (n : ℕ) : ℤ := int32 (x * 2 ^ n)

end Fixed

open Fixed

structure Edge where
  a : ℤ
  b : ℤ
deriving DecidableEq, Repr

def Edge.neg (e : Edge) : Edge := ⟨-e.a, -e.b⟩

def topLeft (e : Edge) : Bool := decide (0 < e.a) || (decide (e.a = 0) && decide (0 < e.b))

def inner (e : Edge) (value : ℤ) : Bool :=
  if topLeft e then decide (0 ≤ value) else decide (0 < value)

def pixelValue (e : Edge) (corner i j : ℤ) : ℤ := add (add corner (mulInt e.a i)) (mulInt e.b j)

def u32 (x : ℕ) : ℕ := x % 2 ^ 32

structure Scissor where
  left : ℕ
  right : ℕ
  top : ℕ
  bottom : ℕ

def Scissor.has (s : Scissor) (x y : ℕ) : Bool :=
  s.left ≤ x && x < s.right && s.top ≤ y && y < s.bottom

/-- `compute_quad`: the pixels of a quad inside of the three edges and the scissor. -/
def computeQuad (s : Scissor) (qx qy : ℕ) (corner : List ℤ) (edges : List Edge) : ℕ :=
  (range 4).foldl (fun mask p =>
    if ((edges.zip corner).all fun ec =>
          inner ec.1 (pixelValue ec.1 ec.2 (p % 2 : ℕ) (p / 2 : ℕ))) &&
        s.has (u32 (qx + p % 2)) (u32 (qy + p / 2)) then mask ||| 1 <<< p else mask) 0

def calcEdgeExtents (e : Edge) : ℤ :=
  if 0 ≤ e.b then if 0 ≤ e.a then add e.a e.b else e.b else if 0 ≤ e.a then e.a else 0

/-- `rast_emit_quad`: a quad that no edge rejects as a whole is tested like `compute_quad` does. -/
def rastEmitQuad (s : Scissor) (x y : ℕ) (corner : List ℤ) (edges : List Edge) : ℕ :=
  if (edges.zip corner).any fun ec => add ec.2 (shl (calcEdgeExtents ec.1) 1) < 0 then 0
  else computeQuad s x y corner edges

def Fits (z : ℤ) : Prop := -2 ^ 31 < z ∧ z < 2 ^ 31

theorem int32_of_fits {z : ℤ} (h : Fits z) : int32 z = z := by
  obtain ⟨hlo, hhi⟩ := h
  rw [int32]
  omega

theorem Fits.neg {z : ℤ} (h : Fits z) : Fits (-z) := ⟨by linarith [h.2], by linarith [h.1]⟩

theorem int32_add_left (x y : ℤ) : int32 (int32 x + y) = int32 (x + y) := by
  simp only [int32]
  omega

theorem int32_add_right (x y : ℤ) : int32 (x + int32 y) = int32 (x + y) := by
  simp only [int32]
  omega

theorem pixelValue_eq (e : Edge) (corner i j : ℤ) :
    pixelValue e corner i j = int32 (corner + e.a * i + e.b * j) := by
  simp only [pixelValue, mulInt, add, int32_add_right, int32_add_left]

end VortexGpu.Gfx

import VortexGpu.FloatRoundTrip

/-!
# Structured sparsity: pruning, compression and the gather

`prune_2to4_matrix` and `compress_2to4_matrix` of the host runtime, over the element types of the
tensor unit, and `gather_sparse` of the simulator, which picks the elements of the dense operand
that meet the compressed ones.
-/

namespace VortexGpu.Tensor

open DyadicRounding FloatFormat List

/-- The types of `sparse_format_supported`. -/
inductive ElemType
  | tf32 | fp16 | bf16 | fp8 | bf8 | int8 | uint8 | mxfp8 | mxbf8 | int4 | uint4 | mxfp4 | nvfp4
deriving DecidableEq, Repr

namespace ElemType

def bits : ElemType → ℕ
  | tf32 => 32
  | fp16 => 16
  | bf16 => 16
  | int4 => 4
  | uint4 => 4
  | mxfp4 => 4
  | nvfp4 => 4
  | _ => 8

def dtypeSize : ElemType → ℕ
  | tf32 => 4
  | fp16 => 2
  | bf16 => 2
  | _ => 1

end ElemType

abbrev Cells := ℕ → ℕ

def u32 (x : ℕ) : ℕ := x % 2 ^ 32

def read (T : ElemType) (ptr : Cells) (offset : ℕ) : ℕ :=
  if T.bits < 8 then
    let value8 := ptr (offset / 2)
    if offset % 2 = 1 then value8 >>> 4 else value8 &&& 0x0f
  else ptr offset

def write (T : ElemType) (ptr : Cells) (offset value : ℕ) : Cells :=
  if T.bits < 8 then
    let old := ptr (offset / 2)
    Function.update ptr (offset / 2)
      (if offset % 2 = 1 then ((old &&& 0x0f) ||| (value <<< 4)) % 256
        else (old &&& 0xf0) ||| (value &&& 0x0f))
  else Function.update ptr offset value

def expandedCols (T : ElemType) (cols : ℕ) : ℕ :=
  if T.bits < 8 then u32 (cols * (8 / T.bits)) else cols

abbrev Magnitude := Option (WithTop ℚ)

def Magnitude.gt : Magnitude → Magnitude → Bool
  | some x, some y => decide (y < x)
  | _, _ => false

def Magnitude.ge : Magnitude → Magnitude → Bool
  | some x, some y => decide (y ≤ x)
  | _, _ => false

def floatOfNat (n : ℕ) : ℕ :=
  if n < 2 ^ 24 then n else roundShift .rne false n (Nat.log2 n - 23) * 2 ^ (Nat.log2 n - 23)

def ofValue : FloatValue → Magnitude
  | .nan => none
  | .inf _ => some ⊤
  | .finite _ mag => some mag

def signedAbs (w c : ℕ) : ℕ := if c < 2 ^ (w - 1) then c else 2 ^ w - c

def ofNat (n : ℕ) : Magnitude := some ((n : ℚ) : WithTop ℚ)

/-- `rv_htof_s` and `rv_btof_s`, with the values of the floats they return: conversions of the
softfloat library, which is not part of the repository. -/
class Conversions where
  rvHtof : ℕ → FloatValue
  rvBtof : ℕ → FloatValue

/-- A conversion to a wider format is exact. -/
class Conversions.ValuePreserving [Conversions] : Prop where
  rvHtof : ∀ val < 2 ^ 16, Conversions.rvHtof val = ieeeValue 5 10 val
  rvBtof : ∀ val < 2 ^ 16, Conversions.rvBtof val = ieeeValue 8 7 val

def elementMagnitude [Conversions] (T : ElemType) (val : ℕ) : Magnitude :=
  match T with
  | .int8 => ofNat (signedAbs 8 val)
  | .uint8 => ofNat val
  | .fp8 => ofNat val
  | .bf8 => ofNat val
  | .int4 => ofNat (signedAbs 4 (val &&& 0xF))
  | .uint4 => ofNat (val &&& 0xF)
  | .fp16 => ofValue (Conversions.rvHtof val)
  | .bf16 => ofValue (Conversions.rvBtof val)
  | _ => ofNat (floatOfNat val)

def selectTop2 (mag : ℕ → Magnitude) : ℕ × ℕ :=
  let start : (ℕ × Magnitude) × (ℕ × Magnitude) :=
    if (mag 1).gt (mag 0) then ((1, mag 1), (0, mag 0)) else ((0, mag 0), (1, mag 1))
  let top := [2, 3].foldl (fun (s : (ℕ × Magnitude) × (ℕ × Magnitude)) i =>
    if (mag i).gt s.1.2 then ((i, mag i), s.1)
    else if (mag i).gt s.2.2 then (s.1, (i, mag i)) else s) start
  (top.1.1, top.2.1)

def perHalf (T : ElemType) : Bool := T.dtypeSize == 4

/-- The element of a half that is set to zero. -/
def zeroIdx (mag : ℕ → Magnitude) (hBase : ℕ) : ℕ :=
  if (mag hBase).ge (mag (hBase + 1)) then 1 else 0

def pruneGroup [Conversions] (T : ElemType) (dense : Cells) (base : ℕ) : Cells :=
  let mag (d : Cells) (i : ℕ) := elementMagnitude T (read T d (u32 i))
  if perHalf T then
    (range 2).foldl (fun d h =>
      let hBase := u32 (base + h * 2)
      write T d (u32 (hBase + zeroIdx (mag d) hBase)) 0) dense
  else
    let keep := selectTop2 fun i => mag dense (base + i)
    (range 4).foldl (fun d i =>
      if i ≠ keep.1 ∧ i ≠ keep.2 then write T d (u32 (base + i)) 0 else d) dense

def overGroups {σ : Type} (rows groups : ℕ) (body : ℕ → ℕ → σ → σ) (s : σ) : σ :=
  (range rows).foldl (fun s row => (range groups).foldl (fun s group => body row group s) s) s

def prune2to4Matrix [Conversions] (T : ElemType) (dense : Cells) (rows cols : ℕ) : Option Cells :=
  let colsExpanded := expandedCols T cols
  if colsExpanded % 4 ≠ 0 then none
  else some (overGroups rows (colsExpanded / 4)
    (fun row group d => pruneGroup T d (u32 (row * colsExpanded + group * 4))) dense)

/-- The first two positions with elements other than zero; `none` if there is a third one. -/
def scanGroup (value : ℕ → ℕ) : Option (ℕ × ℕ) :=
  (range 4).foldl (fun s i => s.bind fun (idx0, idx1) =>
    if value i ≠ 0 then
      if idx0 = 4 then some (i, idx1) else if idx1 = 4 then some (idx0, i) else none
    else some (idx0, idx1)) (some (4, 4))

def padGroup (idx0 idx1 : ℕ) : ℕ × ℕ :=
  let p := if idx0 = 4 then (0, 1) else if idx1 = 4 then (idx0, if idx0 = 0 then 1 else 0)
    else (idx0, idx1)
  if p.2 < p.1 then (p.2, p.1) else p

/-- The compressed matrix and its metadata while they are built; `none` after `return false`. -/
abbrev Compressed := Option (Cells × (ℕ → ℕ))

def compressGroup (T : ElemType) (pruned : Cells) (colsExpanded row group : ℕ) (s : Compressed) :
    Compressed :=
  s.bind fun (compressed, metadata) =>
    let value i := read T pruned (u32 (row * colsExpanded + group * 4 + i))
    (scanGroup value).map fun (i0, i1) =>
      let (idx0, idx1) := padGroup i0 i1
      let out := row * (colsExpanded / 2) + group * 2
      (write T (write T compressed (u32 out) (value idx0)) (u32 (out + 1)) (value idx1),
        Function.update metadata (u32 (row * (colsExpanded / 4) + group))
        (1 <<< idx0 ||| 1 <<< idx1))

def compress2to4Matrix (T : ElemType) (compressed pruned : Cells) (rows cols : ℕ) : Compressed :=
  let colsExpanded := expandedCols T cols
  if colsExpanded % 4 ≠ 0 then none
  else
    overGroups rows (colsExpanded / 4) (compressGroup T pruned colsExpanded)
      (some (compressed, fun _ => 0))

def popcount (x : ℕ) : ℕ := (range 32).countP fun i => x.testBit i

/-- One of the two loops of `gather_sparse`: the output word and the number of elements in it. -/
def gatherWord (bword mask elemBits : ℕ) (s : ℕ × ℕ) : ℕ × ℕ :=
  (range (32 / elemBits)).foldl (fun (s : ℕ × ℕ) i =>
    if mask.testBit i then
      (s.1 ||| u32 (((bword >>> (i * elemBits)) &&& (2 ^ elemBits - 1)) <<< (s.2 * elemBits)),
        s.2 + 1)
    else s) s

/-- `none` if the assertion on the number of selected elements fails. -/
def gatherSparse (bword0 bword1 loMask hiMask elemBits : ℕ) : Option ℕ :=
  if popcount loMask + popcount hiMask = 32 / elemBits then
    some (gatherWord bword1 hiMask elemBits (gatherWord bword0 loMask elemBits (0, 0))).1
  else none

end VortexGpu.Tensor

import VortexGpu.FloatFormat
import Mathlib.Data.Nat.Bitwise

/-!
# Conversions between binary32 and the small float formats

`cvt_f32_to_custom` and `cvt_custom_to_f32` of the software float extension, for any numbers of
exponent and fraction bits, and their wrappers for the 8-bit and tf32 forms. Both round with
guard, round and sticky bits: first to the precision of the target and, below its normal range,
once more to the subnormal grid. A shift by the width of its operand or more is undefined.
-/

namespace VortexGpu.SoftFloat

structure Fflags where
  nx : Bool := false
  uf : Bool := false
  overflow : Bool := false
  nv : Bool := false
deriving DecidableEq, Repr

def clz32 (x : ℕ) : ℕ := 31 - Nat.log2 x

/-- The choice to add one to `keep`, after `main` was shifted right by `sh` and lost `disc`. -/
def grsIncrement (frm : ℕ) (sign : Bool) (lsb : Bool) (main disc sh : ℕ) : Bool :=
  let guard := decide (1 ≤ sh) && (main >>> (sh - 1)) % 2 == 1
  let roundb := decide (2 ≤ sh) && (main >>> (sh - 2)) % 2 == 1
  let sticky := decide (2 ≤ sh) && disc &&& (1 <<< (sh - 1) - 1) != 0
  match frm with
  | 1 => false
  | 2 => sign && disc != 0
  | 3 => !sign && disc != 0
  | 4 => guard
  | _ => guard && ((roundb || sticky) || lsb)

def toInf (frm : ℕ) (sign : Bool) : Bool :=
  if frm = 0 ∨ frm = 4 then true
  else if frm = 1 then false
  else if frm = 3 then !sign
  else if frm = 2 then sign
  else true

/-- The rounding to the precision of the target: the significand with its leading one at bit
`sigBits`, the exponent, and the inexact flag. -/
def reducePrecision (frm : ℕ) (sign : Bool) (sigBits main : ℕ) (exponent : ℤ) :
    ℕ × ℤ × Bool :=
  if sigBits < 23 then
    let sh := 23 - sigBits
    let remainder := main &&& (1 <<< sh - 1)
    let kept := main >>> sh
    if grsIncrement frm sign (kept % 2 == 1) main remainder sh then
      if kept + 1 = 1 <<< (sigBits + 1) then ((kept + 1) >>> 1, exponent + 1, remainder != 0)
      else (kept + 1, exponent, remainder != 0)
    else (kept, exponent, remainder != 0)
  else (main <<< (sigBits - 23), exponent, false)

def roundSubnormal (frm : ℕ) (sign : Bool) (sigBits main t : ℕ) : Option (ℕ × ℕ) :=
  let keep := if t < 64 then main >>> t else 0
  let disc := if t < 64 then main &&& (1 <<< t - 1) else if main ≠ 0 then 1 else 0
  -- the guard bit is read with a shift by `t - 1`
  if 64 < t then none
  else
    let lsb := decide (sigBits ≠ 0) && keep % 2 == 1
    some (keep + (grsIncrement frm sign lsb main disc t).toNat, disc)

def normalizeF32 (expIeee sigIeee : ℕ) : ℕ × ℤ :=
  if expIeee ≠ 0 then ((1 <<< 23) ||| sigIeee, (expIeee : ℤ) - 127)
  else
    let sh := clz32 sigIeee - 8
    (sigIeee <<< sh, -126 - (sh : ℤ))

def packCustom (expBits sigBits sign exp mant : ℕ) : ℕ :=
  let mantMask := if sigBits ≠ 0 then 1 <<< sigBits - 1 else 0
  ((sign <<< (expBits + sigBits)) ||| (exp <<< sigBits)) ||| (mant &&& mantMask)

def cvtFinite (sign expIeee sigIeee expBits sigBits frm : ℕ) : Option (ℕ × Fflags) :=
  let expMaxFinite := 1 <<< expBits - 1 - 1
  let mantMask := if sigBits ≠ 0 then 1 <<< sigBits - 1 else 0
  let biasOut : ℤ := 2 ^ (expBits - 1) - 1
  let emax := biasOut
  let emin := 1 - biasOut
  let (significand, exponent) := normalizeF32 expIeee sigIeee
  let (main, exponent, nx) := reducePrecision frm (sign != 0) sigBits significand exponent
  let pack := packCustom expBits sigBits sign
  if emax < exponent then
    some (if toInf frm (sign != 0) then pack (1 <<< expBits - 1) 0 else pack expMaxFinite mantMask,
      { nx := true, overflow := true })
  else if emin ≤ exponent then
    some (pack (exponent + biasOut).toNat (if sigBits ≠ 0 then main &&& mantMask else 0),
      { nx := nx })
  else do
    let (mantSub, disc) ← roundSubnormal frm (sign != 0) sigBits main (emin - exponent).toNat
    let nx := nx || disc != 0
    if sigBits ≠ 0 ∧ mantSub = 1 <<< sigBits then some (pack 1 0, { nx := nx })
    else some (pack 0 mantSub, { nx := nx, uf := disc != 0 && mantSub != 0 })

def cvtF32ToCustom (value : BitVec 32) (expBits sigBits frm : ℕ) : Option (ℕ × Fflags) :=
  if expBits = 0 ∨ 32 < (1 + expBits + sigBits) % 2 ^ 32 then some (0, { nv := true })
  -- the sum may wrap round; `1u << exp_bits` and `1u << sig_bits` are then undefined
  else if 32 ≤ expBits ∨ 32 ≤ sigBits then none
  else
    let bits := value.toNat
    let sign := bits >>> 31
    let expIeee := (bits >>> 23) &&& 0xFF
    let sigIeee := bits &&& 0x7FFFFF
    let expMax := 1 <<< expBits - 1
    let pack := packCustom expBits sigBits sign
    if expIeee = 0xFF then
      if sigIeee ≠ 0 then
        some (pack expMax (if sigBits ≠ 0 then 1 <<< (sigBits - 1) else 0),
          { nv := sigIeee &&& 0x400000 == 0 })
      else some (pack expMax 0, {})
    else if expIeee = 0 ∧ sigIeee = 0 then some (pack 0 0, {})
    else cvtFinite sign expIeee sigIeee expBits sigBits frm

/-- The significand with its leading one at bit `sigBits` and the exponent of a finite custom
number that is not zero. -/
def normalizeCustom (expBits sigBits expField sigField : ℕ) : ℕ × ℤ :=
  let biasCustom : ℤ := 2 ^ (expBits - 1) - 1
  if expField = 0 then
    let shift := clz32 sigField - (31 - sigBits)
    (sigField <<< shift, 1 - biasCustom - shift)
  else ((1 <<< sigBits) ||| sigField, expField - biasCustom)

def widenPrecision (frm : ℕ) (sign : Bool) (sigBits significand : ℕ) (ieeeExponent : ℤ) :
    ℕ × ℤ × ℕ :=
  if 23 < sigBits then
    let sh := sigBits - 23
    let dropped := significand &&& (1 <<< sh - 1)
    let main24 := significand >>> sh
    if grsIncrement frm sign (main24 % 2 == 1) significand dropped sh then
      if main24 + 1 = 1 <<< 24 then ((main24 + 1) >>> 1, ieeeExponent + 1, dropped)
      else (main24 + 1, ieeeExponent, dropped)
    else (main24, ieeeExponent, dropped)
  else (significand <<< (23 - sigBits), ieeeExponent, 0)

def packF32 (sign exp mant : ℕ) : ℕ := ((sign <<< 31) % 2 ^ 32 ||| (exp <<< 23)) ||| mant

def cvtFiniteCustom (sign expField sigField expBits sigBits frm : ℕ) : Option (ℕ × Fflags) :=
  let (significand, exponent) := normalizeCustom expBits sigBits expField sigField
  let (main24, ieeeExponent, dropped) :=
    widenPrecision frm (sign != 0) sigBits significand (exponent + 127)
  let nx := decide (23 < sigBits) && dropped != 0
  if 0xFF ≤ ieeeExponent then
    some (packF32 sign 0xFF (if toInf frm (sign != 0) then 0 else 0x7FFFFF),
      { nx := true, overflow := true })
  else if 0 < ieeeExponent then some (packF32 sign ieeeExponent.toNat (main24 &&& 0x7FFFFF),
    { nx := nx })
  else do
    let (mantSub, disc) ← roundSubnormal frm (sign != 0) 23 main24 (1 - ieeeExponent).toNat
    let nx := nx || (dropped != 0 || disc != 0)
    if mantSub = 1 <<< 23 then some (packF32 sign 1 0, { nx := nx })
    else some (packF32 sign 0 mantSub,
      { nx := nx, uf := (dropped != 0 || disc != 0) && mantSub != 0 })

def cvtCustomToF32 (value expBits sigBits frm : ℕ) : Option (ℕ × Fflags) :=
  if expBits = 0 ∨ 32 < (1 + expBits + sigBits) % 2 ^ 32 then some (0, { nv := true })
  else if 32 ≤ expBits ∨ 32 ≤ sigBits then none
  else
    let sign := value >>> (expBits + sigBits)
    let expField := (value >>> sigBits) &&& (1 <<< expBits - 1)
    let sigField := value &&& (1 <<< sigBits - 1)
    let expMax := 1 <<< expBits - 1
    let isE4m3 := decide (expBits = 4 ∧ sigBits = 3)
    if isE4m3 && expField == 0xf && sigField == 0x7 then some (packF32 sign 0xFF 0x400000, {})
    else if !isE4m3 && expField == expMax then
      if sigField ≠ 0 then
        some (packF32 sign 0xFF 0x400000,
          { nv := decide (0 < sigBits) && (sigField >>> (sigBits - 1)) &&& 1 == 0 })
      else some (packF32 sign 0xFF 0, {})
    else if expField = 0 ∧ sigField = 0 then some (packF32 sign 0 0, {})
    else cvtFiniteCustom sign expField sigField expBits sigBits frm

def encodeWith (expBits sigBits mask frm : ℕ) (a : BitVec 32) : Option ℕ :=
  (cvtF32ToCustom a expBits sigBits frm).map fun out => out.1 &&& mask

def decodeWith (expBits sigBits frm : ℕ) (a : ℕ) : Option (BitVec 32) :=
  (cvtCustomToF32 a expBits sigBits frm).map fun out => BitVec.ofNat 32 out.1

section
variable (frm : ℕ)

def f32ToF8e4m3 (a : BitVec 32) : Option ℕ := encodeWith 4 3 0xff frm a
def f8e4m3ToF32 (a : ℕ) : Option (BitVec 32) := decodeWith 4 3 frm a
def f32ToF8e5m2 (a : BitVec 32) : Option ℕ := encodeWith 5 2 0xff frm a
def f8e5m2ToF32 (a : ℕ) : Option (BitVec 32) := decodeWith 5 2 frm a
def f32ToTf32 (a : BitVec 32) : Option ℕ := encodeWith 8 10 0xffffffff frm a
def tf32ToF32 (a : ℕ) : Option (BitVec 32) := decodeWith 8 10 frm a

end

end VortexGpu.SoftFloat

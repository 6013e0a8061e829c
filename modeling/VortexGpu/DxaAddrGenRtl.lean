import VortexGpu.DxaSetupRtl
import VortexGpu.Odometer
import VortexGpu.Streaming

/-!
# The address generator of the tile engine

`VX_dxa_addr_gen` walks a tile row by row and cuts each row at the cache lines. The row's address is
a cursor that is advanced by one of four differences, chosen by the outer dimension that steps. The
tile is covered exactly if the cursor is the address of each row; the differences make it so only if
the dimensions below the one before have nothing to give back.
-/

namespace VortexGpu.Rtl.Dxa
open Nat (mod_eq_of_lt mod_lt two_pow_pos)
open List (flatMap_cons mem_cons prod_pos range replicate)
open Option
open Function (update)

structure Token where
  clAddr : ℕ
  smemByteAddr : ℕ
  byteOffset : ℕ
  validLength : ℕ
  oob : Bool
  last : Bool
  kRow : ℕ
  nBase : ℕ

structure AddrGen where
  active : Bool
  gmemCursor : ℕ
  rowLen : ℕ
  clAddr : ℕ
  linesLeft : ℕ
  isFirst : Bool
  lastVend : ℕ
  dimCount : Fin 4 → ℕ
  dimLast : Fin 4 → ℕ
  delta : Fin 4 → ℕ
  oobLimit : Fin 4 → ℕ
  smemByteAddr : ℕ
  kmDestKmajor : Bool
  kmElemBytes : ℕ
  kmTile1 : ℕ
  kmRowBase : ℕ
  kmEsize : ℕ
  nBase : ℕ

def Geometry.lineSize (g : Geometry) : ℕ := 2 ^ g.lineBits

def calcNumLines (g : Geometry) (span : ℕ) : ℕ := (span + g.lineSize - 1) % 2 ^ 32 / g.lineSize

def calcLastVend (g : Geometry) (off : ℕ) : ℕ := if off = 0 then g.lineSize else off

namespace AddrGen

def firstOff (g : Geometry) (s : AddrGen) : ℕ := s.gmemCursor % g.lineSize

def isLastLine (s : AddrGen) : Bool := decide (s.linesLeft = 1)

def curByteOffset (g : Geometry) (s : AddrGen) : ℕ := if s.isFirst then s.firstOff g else 0

def curValidLength (g : Geometry) (s : AddrGen) : ℕ :=
  let validEnd := if s.isLastLine then s.lastVend else g.lineSize
  let validStart := if s.isFirst then s.firstOff g else 0
  (validEnd + 2 * g.lineSize - validStart) % (2 * g.lineSize)

def dimIsLast (s : AddrGen) (d : Fin 4) : Bool := decide (s.dimCount d = s.dimLast d)

def isLastOuter (s : AddrGen) : Bool :=
  s.dimIsLast 0 && s.dimIsLast 1 && s.dimIsLast 2 && s.dimIsLast 3

def isOob (s : AddrGen) : Bool :=
  decide (s.oobLimit 0 ≤ s.dimCount 0) || decide (s.oobLimit 1 ≤ s.dimCount 1) ||
  decide (s.oobLimit 2 ≤ s.dimCount 2) ||
    decide (s.oobLimit 3 ≤ s.dimCount 3)

def out (g : Geometry) (s : AddrGen) : Option Token :=
  if s.active then
    some ⟨s.clAddr, s.smemByteAddr, s.curByteOffset g, s.curValidLength g, s.isOob,
      s.isLastLine && s.isLastOuter, s.dimCount 0 % 2 ^ 16, s.nBase⟩
  else none

def stepDelta (s : AddrGen) : ℕ :=
  if !s.dimIsLast 0 then s.delta 0 else if !s.dimIsLast 1 then s.delta 1
  else if !s.dimIsLast 2 then s.delta 2 else s.delta 3

def nextCursor (g : Geometry) (s : AddrGen) : ℕ := (s.gmemCursor + s.stepDelta) % 2 ^ g.addrWidth

def kmStep (g : Geometry) (s : AddrGen) : ℕ :=
  if s.isFirst then (g.lineSize - s.firstOff g) * s.kmTile1 % 2 ^ 32
  else s.kmTile1 * g.lineSize % 2 ^ 32

def nextCount (s : AddrGen) : Fin 4 → ℕ :=
  let inc d := (s.dimCount d + 1) % 2 ^ 32
  if !s.dimIsLast 0 then update s.dimCount 0 (inc 0)
  else if !s.dimIsLast 1 then update (update s.dimCount 0 0) 1 (inc 1)
  else if !s.dimIsLast 2 then update (update (update s.dimCount 0 0) 1 0) 2 (inc 2)
  else update (update (update (update s.dimCount 0 0) 1 0) 2 0) 3 (inc 3)

def startKmEsize (elemBytes : ℕ) : ℕ :=
  if elemBytes = 8 then 3 else if elemBytes = 4 then 2 else if elemBytes = 2 then 1 else 0

section
variable (g : Geometry)

def start (p : Params) : AddrGen :=
  let startSpan := (p.initialGmemBase % g.lineSize + p.rowLenBytes) % 2 ^ 32
  { active := true
    gmemCursor := p.initialGmemBase
    rowLen := p.rowLenBytes
    clAddr := p.initialGmemBase / g.lineSize
    linesLeft := calcNumLines g startSpan
    isFirst := true
    lastVend := calcLastVend g (startSpan % g.lineSize)
    dimCount := fun _ => 0
    dimLast := fun d => sub32 (p.dimTiles d) 1
    delta := p.delta
    oobLimit := p.oobLimit
    smemByteAddr := p.initialSmemBase
    kmDestKmajor := p.destKmajor
    kmElemBytes := p.elemBytes
    kmTile1 := if p.elemBytes = 0 then 0 else p.perLaneStrideBytes / 2 ^ startKmEsize p.elemBytes
    kmRowBase := p.initialSmemBase
    kmEsize := startKmEsize p.elemBytes
    nBase := 0 }

def nextRow (s : AddrGen) : AddrGen :=
  let wrapSpan := (s.nextCursor g % g.lineSize + s.rowLen) % 2 ^ 32
  { s with
    gmemCursor := s.nextCursor g
    clAddr := s.nextCursor g / g.lineSize
    linesLeft := calcNumLines g wrapSpan
    isFirst := true
    lastVend := calcLastVend g (wrapSpan % g.lineSize)
    smemByteAddr :=
      if s.kmDestKmajor then (s.kmRowBase + s.kmElemBytes) % 2 ^ g.smemWidth
      else (s.smemByteAddr + s.curValidLength g) % 2 ^ g.smemWidth
    kmRowBase := if s.kmDestKmajor then (s.kmRowBase + s.kmElemBytes) % 2 ^ g.smemWidth
      else s.kmRowBase
    nBase := 0
    dimCount := s.nextCount }

def nextLine (s : AddrGen) : AddrGen :=
  { s with
    clAddr := (s.clAddr + 1) % 2 ^ (g.addrWidth - g.lineBits)
    linesLeft := (s.linesLeft + (2 ^ 32 - 1)) % 2 ^ 32
    isFirst := false
    smemByteAddr :=
      (s.smemByteAddr + if s.kmDestKmajor then s.kmStep g else s.curValidLength g) % 2 ^ g.smemWidth
    nBase := (s.nBase + s.curValidLength g / 2 ^ s.kmEsize) % 2 ^ 16 }

def step (s : AddrGen) (outReady : Bool) : AddrGen :=
  if s.active && outReady then
    if s.isLastLine && s.isLastOuter then
      { s with
        active := false
        smemByteAddr :=
          (s.smemByteAddr + if s.kmDestKmajor then s.kmStep g else s.curValidLength g) %
            2 ^ g.smemWidth }
    else if s.isLastLine then s.nextRow g
    else s.nextLine g
  else s

/-- The tokens that are taken after a start, for a pattern of `out_ready`. -/
def tokens (p : Params) (outReady : List Bool) : List Token :=
  Streaming.taken (out g) (step g) (start g p) outReady

end

end AddrGen

open AddrGen

def Token.bytes (g : Geometry) (t : Token) : List ℕ :=
  (range t.validLength).map fun i => (t.clAddr * g.lineSize + t.byteOffset + i) % 2 ^ g.addrWidth

def bytesFrom (g : Geometry) (addr n : ℕ) : List ℕ :=
  (range n).map fun i => (addr + i) % 2 ^ g.addrWidth

section Lines

variable {g : Geometry} {s : AddrGen}

theorem lineSize_pos (g : Geometry) : 0 < g.lineSize := two_pow_pos _

theorem lineSize_le (g : Geometry) : g.lineSize ≤ 2 ^ 30 :=
  Nat.pow_le_pow_right (by omega) g.line_le

theorem bytesFrom_add (g : Geometry) (addr m n : ℕ) :
    bytesFrom g addr (m + n) = bytesFrom g addr m ++ bytesFrom g (addr + m) n := by
  simp only [bytesFrom, List.range_add, List.map_append, List.map_map]
  congr 1
  refine List.map_congr_left fun i _ => ?_
  rw [Function.comp_apply, add_assoc]

/-- Between two lines of a row: `k` bytes are left, from address `y` on. -/
structure InRow (g : Geometry) (s : AddrGen) (y k : ℕ) : Prop where
  active : s.active = true
  left : 0 < k
  len : k ≤ s.rowLen
  cl : s.clAddr = y / g.lineSize % 2 ^ (g.addrWidth - g.lineBits)
  lines : s.linesLeft = (y % g.lineSize + k + g.lineSize - 1) / g.lineSize
  vend : s.lastVend = calcLastVend g ((y % g.lineSize + k) % g.lineSize)
  first : if s.isFirst then y % g.lineSize = s.gmemCursor % g.lineSize else y % g.lineSize = 0

section
variable {y k : ℕ} (h : InRow g s y k)
include h

theorem InRow.offset : s.curByteOffset g = y % g.lineSize := by
  have hfirst := h.first
  unfold curByteOffset firstOff
  split at hfirst
  · rename_i hf
    rw [if_pos hf, hfirst]
  · rename_i hf
    rw [if_neg hf, hfirst]

theorem InRow.isLastLine_iff : s.isLastLine = true ↔ y % g.lineSize + k ≤ g.lineSize := by
  have hL := lineSize_pos g
  have hk := h.left
  rw [isLastLine, decide_eq_true_iff, h.lines]
  constructor
  · intro hone
    by_contra hgt
    have htwo : 2 ≤ (y % g.lineSize + k + g.lineSize - 1) / g.lineSize := by
      rw [Nat.le_div_iff_mul_le hL]
      omega
    omega
  · intro hle
    rw [Nat.div_eq_iff hL]
    constructor <;> omega

theorem InRow.length : s.curValidLength g = min k (g.lineSize - y % g.lineSize) := by
  have hL := lineSize_pos g
  have hoff := mod_lt y hL
  have hk := h.left
  have hstart : (if s.isFirst then s.firstOff g else 0) = y % g.lineSize := h.offset
  simp only [curValidLength, hstart]
  by_cases hlast : s.isLastLine = true
  · have hle := h.isLastLine_iff.mp hlast
    have hvend : s.lastVend = y % g.lineSize + k := by
      rw [h.vend, calcLastVend]
      rcases lt_or_eq_of_le hle with hlt | heq
      · rw [mod_eq_of_lt hlt, if_neg (by omega)]
      · rw [heq, Nat.mod_self, if_pos rfl]
    rw [if_pos hlast, hvend, show y % g.lineSize + k + 2 * g.lineSize - y % g.lineSize =
      k + 2 * g.lineSize by omega, Nat.add_mod_right, mod_eq_of_lt (by omega)]
    omega
  · have hgt : ¬ y % g.lineSize + k ≤ g.lineSize := mt h.isLastLine_iff.mpr hlast
    rw [if_neg hlast, show g.lineSize + 2 * g.lineSize - y % g.lineSize =
      (g.lineSize - y % g.lineSize) + 2 * g.lineSize by omega,
      Nat.add_mod_right, mod_eq_of_lt (by omega)]
    omega

theorem InRow.bytes {t : Token} (ht : s.out g = some t) :
    t.bytes g = bytesFrom g y (min k (g.lineSize - y % g.lineSize)) := by
  rw [out, if_pos h.active] at ht
  cases ht
  rw [Token.bytes, bytesFrom, h.length, h.offset, h.cl]
  refine List.map_congr_left fun i _ => ?_
  have hwidth : 2 ^ g.addrWidth = 2 ^ (g.addrWidth - g.lineBits) * g.lineSize := by
    have := g.line_le
    have := g.addr_ge
    rw [Geometry.lineSize, ← pow_add]
    congr 1
    omega
  rw [hwidth, ← Nat.mul_mod_mul_right, add_assoc, Nat.mod_add_mod, ← add_assoc,
    Nat.div_add_mod']

theorem InRow.nextLine (hlen : s.rowLen + 2 * g.lineSize ≤ 2 ^ 32)
    (hlast : ¬ s.isLastLine = true) : InRow g (s.nextLine g) (y + (g.lineSize - y % g.lineSize))
      (k - (g.lineSize - y % g.lineSize)) := by
  have hL := lineSize_pos g
  have hoff := mod_lt y hL
  have hgt : ¬ y % g.lineSize + k ≤ g.lineSize := mt h.isLastLine_iff.mpr hlast
  have hdiv := Nat.div_add_mod y g.lineSize
  have hk := h.len
  have hnext : y + (g.lineSize - y % g.lineSize) = g.lineSize * (y / g.lineSize + 1) := by
    rw [mul_add, mul_one]
    omega
  have hmod : (y + (g.lineSize - y % g.lineSize)) % g.lineSize = 0 := by
    rw [hnext, Nat.mul_mod_right]
  refine ⟨h.active, by omega, ?_, ?_, ?_, ?_, ?_⟩
  · exact le_trans (Nat.sub_le _ _) hk
  · show (s.clAddr + 1) % 2 ^ (g.addrWidth - g.lineBits) = _
    rw [h.cl, Nat.mod_add_mod, hnext, Nat.mul_div_cancel_left _ hL]
  · show (s.linesLeft + (2 ^ 32 - 1)) % 2 ^ 32 = _
    rw [hmod, h.lines]
    have hsucc : (y % g.lineSize + k + g.lineSize - 1) / g.lineSize =
        (0 + (k - (g.lineSize - y % g.lineSize)) + g.lineSize - 1) / g.lineSize + 1 := by
      rw [← Nat.add_div_right _ hL]
      congr 1
      omega
    have hbound : (y % g.lineSize + k + g.lineSize - 1) / g.lineSize ≤ 2 ^ 32 - 1 :=
      le_trans (Nat.div_le_self _ _) (by omega)
    rw [hsucc] at hbound ⊢
    generalize (0 + (k - (g.lineSize - y % g.lineSize)) + g.lineSize - 1) / g.lineSize =
      m at hbound ⊢
    omega
  · show s.lastVend = _
    rw [h.vend, hmod]
    congr 1
    rw [show y % g.lineSize + k = 0 + (k - (g.lineSize - y % g.lineSize)) + g.lineSize by omega,
      Nat.add_mod_right]
  · show if false then _ else _
    exact hmod

end

end Lines

open MixedRadix

def regs (f : Fin 4 → ℕ) : List ℕ := [f 0, f 1, f 2, f 3]

def cursorAt (g : Geometry) (p : Params) : ℕ → ℕ
  | 0 => p.initialGmemBase
  | r + 1 =>
    (cursorAt g p r +
      (regs p.delta).getD (carries (regs p.dimTiles) (digits (regs p.dimTiles) r)) 0) %
      2 ^ g.addrWidth

/-- The registers that change only from row to row, in row `r`. -/
structure AtRow (g : Geometry) (p : Params) (s : AddrGen) (r : ℕ) : Prop where
  cursor : s.gmemCursor = cursorAt g p r
  rowLen : s.rowLen = p.rowLenBytes
  count : regs s.dimCount = digits (regs p.dimTiles) r
  last : ∀ d, s.dimLast d + 1 = p.dimTiles d
  delta : s.delta = p.delta
  lt : r < (regs p.dimTiles).prod

structure Params.Sized (g : Geometry) (p : Params) : Prop where
  tiles : ∀ d, 0 < p.dimTiles d
  tiles_lt : ∀ d, p.dimTiles d < 2 ^ 32
  row : 0 < p.rowLenBytes
  row_le : p.rowLenBytes + 2 * g.lineSize ≤ 2 ^ 32
  base : p.initialGmemBase < 2 ^ g.addrWidth

section Rows

variable {g : Geometry} {p : Params} {s : AddrGen} {r : ℕ}

theorem Params.Sized.regs_pos (h : p.Sized g) : ∀ t ∈ regs p.dimTiles, 0 < t := by
  intro t ht
  simp only [regs, mem_cons, List.not_mem_nil, or_false] at ht
  rcases ht with rfl | rfl | rfl | rfl <;> exact h.tiles _

theorem AtRow.dimIsLast (h : AtRow g p s r) (d : Fin 4) :
    s.dimIsLast d = decide (s.dimCount d + 1 = p.dimTiles d) := by
  rw [AddrGen.dimIsLast, decide_eq_decide, ← h.last d]
  omega

theorem AtRow.advance (h : AtRow g p s r) (hp : p.Sized g) (hr : r + 1 < (regs p.dimTiles).prod) :
    regs s.nextCount = (next (regs p.dimTiles) (regs s.dimCount)).1 ∧
    s.stepDelta = (regs p.delta).getD (carries (regs p.dimTiles) (regs s.dimCount)) 0 := by
  have hnext := next_digits hp.regs_pos h.lt
  have hlt := digits_lt hp.regs_pos r
  rw [← h.count] at hnext hlt
  have hinc : ∀ d, s.dimCount d < p.dimTiles d →
      (s.dimCount d + 1) % 2 ^ 32 = s.dimCount d + 1 := by
    intro d hd
    have := hp.tiles_lt d
    exact mod_eq_of_lt (by omega)
  obtain ⟨hlt0, hlt1, hlt2, hlt3⟩ : s.dimCount 0 < p.dimTiles 0 ∧
      s.dimCount 1 < p.dimTiles 1 ∧
      s.dimCount 2 < p.dimTiles 2 ∧ s.dimCount 3 < p.dimTiles 3 := by
    simpa [regs] using hlt
  have hcarry : (next (regs p.dimTiles) (regs s.dimCount)).2 = false := by
    rw [hnext]
    exact decide_eq_false (by omega)
  simp only [AddrGen.nextCount, AddrGen.stepDelta, h.delta, h.dimIsLast, hinc 0 hlt0, hinc 1 hlt1,
    hinc 2 hlt2, hinc 3 hlt3]
  by_cases h0 : s.dimCount 0 + 1 = p.dimTiles 0
  · by_cases h1 : s.dimCount 1 + 1 = p.dimTiles 1
    · by_cases h2 : s.dimCount 2 + 1 = p.dimTiles 2
      · have h3 : ¬ s.dimCount 3 + 1 = p.dimTiles 3 := by
          intro h3
          simp [regs, next, h0, h1, h2, h3] at hcarry
        refine ⟨?_, by simp [regs, carries, h0, h1, h2, h3]⟩
        simp only [h0, h1, h2, regs, next, if_neg h3, decide_true, Bool.not_true,
          Bool.false_eq_true, if_false, if_true]
        rfl
      · refine ⟨?_, by simp [regs, carries, h0, h1, h2]⟩
        simp only [h0, h1, regs, next, if_neg h2, decide_eq_false h2, decide_true, Bool.not_true,
          Bool.not_false, Bool.false_eq_true, if_false, if_true]
        rfl
    · refine ⟨?_, by simp [regs, carries, h0, h1]⟩
      simp only [h0, regs, next, if_neg h1, decide_eq_false h1, decide_true, Bool.not_true,
        Bool.not_false, Bool.false_eq_true, if_false, if_true]
      rfl
  · refine ⟨?_, by simp [regs, carries, h0]⟩
    simp only [regs, next, if_neg h0, decide_eq_false h0, Bool.not_false, if_true]
    rfl

theorem AtRow.isLastOuter (h : AtRow g p s r) (hp : p.Sized g) :
    s.isLastOuter = decide (r + 1 = (regs p.dimTiles).prod) := by
  have hnext := next_digits hp.regs_pos h.lt
  rw [← h.count] at hnext
  have hcarry := congrArg Prod.snd hnext
  simp only at hcarry
  rw [← hcarry]
  simp only [AddrGen.isLastOuter, h.dimIsLast]
  by_cases h0 : s.dimCount 0 + 1 = p.dimTiles 0
  · by_cases h1 : s.dimCount 1 + 1 = p.dimTiles 1
    · by_cases h2 : s.dimCount 2 + 1 = p.dimTiles 2
      · by_cases h3 : s.dimCount 3 + 1 = p.dimTiles 3 <;> simp [regs, next, h0, h1, h2, h3]
      · simp [regs, next, h0, h1, h2]
    · simp [regs, next, h0, h1]
  · simp [regs, next, h0]

theorem cursorAt_lt (hp : p.Sized g) (r : ℕ) : cursorAt g p r < 2 ^ g.addrWidth := by
  cases r with
  | zero => exact hp.base
  | succ r => exact mod_lt _ (two_pow_pos _)

theorem inRow_first {s : AddrGen} {a : ℕ} (hp : p.Sized g) (ha : a < 2 ^ g.addrWidth)
    (hactive : s.active = true)
    (hcursor : s.gmemCursor = a) (hlen : s.rowLen = p.rowLenBytes) (hcl : s.clAddr = a / g.lineSize)
    (hlines : s.linesLeft = calcNumLines g ((a % g.lineSize + p.rowLenBytes) % 2 ^ 32))
    (hvend : s.lastVend = calcLastVend g ((a % g.lineSize + p.rowLenBytes) % 2 ^ 32 % g.lineSize))
    (hfirst : s.isFirst = true) : InRow g s a p.rowLenBytes := by
  have hL := lineSize_pos g
  have hoff := mod_lt a hL
  have hrow := hp.row_le
  have hspan : (a % g.lineSize + p.rowLenBytes) % 2 ^ 32 = a % g.lineSize + p.rowLenBytes :=
    mod_eq_of_lt (by omega)
  rw [hspan] at hlines hvend
  refine ⟨hactive, hp.row, hlen.ge, ?_, ?_, hvend, ?_⟩
  · have hlt : a / g.lineSize < 2 ^ (g.addrWidth - g.lineBits) := by
      have hline := g.line_le
      have haddr := g.addr_ge
      rw [Nat.div_lt_iff_lt_mul hL, Geometry.lineSize, ← pow_add, Nat.sub_add_cancel (by omega)]
      exact ha
    rw [hcl, mod_eq_of_lt hlt]
  · rw [hlines, calcNumLines, mod_eq_of_lt (by omega)]
  · rw [if_pos hfirst, hcursor]

theorem AtRow.nextRow (h : AtRow g p s r) (hp : p.Sized g) (hactive : s.active = true)
    (hr : r + 1 < (regs p.dimTiles).prod) :
    AtRow g p (s.nextRow g) (r + 1) ∧
    InRow g (s.nextRow g) (cursorAt g p (r + 1)) p.rowLenBytes := by
  have hcursor : s.nextCursor g = cursorAt g p (r + 1) := by
    rw [nextCursor, (h.advance hp hr).2, h.cursor, h.count, cursorAt]
  have hcount : regs s.nextCount = digits (regs p.dimTiles) (r + 1) := by
    rw [(h.advance hp hr).1, h.count, next_digits hp.regs_pos h.lt]
  refine ⟨⟨hcursor, h.rowLen, hcount, h.last, h.delta, hr⟩, ?_⟩
  refine inRow_first hp (cursorAt_lt hp (r + 1)) hactive hcursor h.rowLen ?_ ?_ ?_ rfl
  · exact congrArg (· / g.lineSize) hcursor
  · simp only [AddrGen.nextRow, hcursor, h.rowLen]
  · simp only [AddrGen.nextRow, hcursor, h.rowLen]

theorem atRow_start (hp : p.Sized g) :
    AtRow g p (start g p) 0 ∧ InRow g (start g p) p.initialGmemBase p.rowLenBytes := by
  refine ⟨⟨rfl, rfl, ?_, fun d => ?_, rfl, prod_pos hp.regs_pos⟩, ?_⟩
  · rw [digits_zero]
    rfl
  · have hpos := hp.tiles d
    have hlt := hp.tiles_lt d
    show sub32 (p.dimTiles d) 1 + 1 = p.dimTiles d
    rw [sub32]
    omega
  · exact inRow_first hp hp.base rfl rfl rfl rfl rfl rfl rfl

end Rows

def LastOnFinal (ts : List Token) : Prop :=
  ∃ init final, ts = init ++ [final] ∧ final.last = true ∧
    ∀ t ∈ init, t.last = false

theorem LastOnFinal.cons {t : Token} {ts : List Token} (ht : t.last = false) (h : LastOnFinal ts) :
    LastOnFinal (t :: ts) := by
  obtain ⟨init, final, rfl, hfinal, hinit⟩ := h
  refine ⟨t :: init, final, rfl, hfinal, fun t' ht' => ?_⟩
  rcases mem_cons.mp ht' with rfl | hmem
  · exact ht
  · exact hinit t' hmem

section Tiles

variable {g : Geometry} {p : Params}

open Streaming

theorem AtRow.nextLine {s : AddrGen} {r : ℕ} (h : AtRow g p s r) : AtRow g p (s.nextLine g) r :=
  { h with }

theorem plans_row (hp : p.Sized g) {r : ℕ} {rest : List ℕ}
    (hcont : ∀ s : AddrGen, AtRow g p s r → s.active = true → s.isLastLine = true →
      ∃ ts, Plans (out g) (step g) (s.step g true) ts ∧ ts.flatMap (Token.bytes g) = rest ∧
        if r + 1 = (regs p.dimTiles).prod then ts = [] else LastOnFinal ts)
    {s : AddrGen} {y k : ℕ} (hrow : AtRow g p s r) (hline : InRow g s y k) :
    ∃ ts, Plans (out g) (step g) s ts ∧ ts.flatMap (Token.bytes g) = bytesFrom g y k ++ rest ∧
      LastOnFinal ts := by
  induction k using Nat.strong_induction_on generalizing s y with
  | _ k ih =>
    have hL := lineSize_pos g
    have hoff := mod_lt y hL
    obtain ⟨t, ht⟩ : ∃ t, s.out g = some t := ⟨_, if_pos hline.active⟩
    have hbytes := hline.bytes ht
    have hflag : t.last = (s.isLastLine && s.isLastOuter) := by
      rw [out, if_pos hline.active, some_inj] at ht
      rw [← ht]
    by_cases hlast : s.isLastLine = true
    · obtain ⟨ts, hplans, hts, hfinal⟩ := hcont s hrow hline.active hlast
      have hle := hline.isLastLine_iff.mp hlast
      refine ⟨t :: ts, .item ht hplans, ?_, ?_⟩
      · rw [flatMap_cons, hbytes, hts, min_eq_left (by omega)]
      rw [hlast, Bool.true_and, hrow.isLastOuter hp] at hflag
      split at hfinal
      · rename_i hrows
        rw [decide_eq_true hrows] at hflag
        exact ⟨[], t, by rw [hfinal]; rfl, hflag, by simp⟩
      · rename_i hrows
        rw [decide_eq_false hrows] at hflag
        exact hfinal.cons hflag
    · have hgt : ¬ y % g.lineSize + k ≤ g.lineSize := mt hline.isLastLine_iff.mpr hlast
      have hstep : s.step g true = s.nextLine g := by
        simp [step, hline.active, hlast]
      obtain ⟨ts, hplans, hts, hfinal⟩ :=
        ih (k - (g.lineSize - y % g.lineSize)) (by omega) hrow.nextLine
        (hline.nextLine (by rw [hrow.rowLen]; exact hp.row_le) hlast)
      refine ⟨t :: ts, .item ht (hstep ▸ hplans), ?_, ?_⟩
      · have hsplit : k = (g.lineSize - y % g.lineSize) + (k - (g.lineSize - y % g.lineSize)) := by
          omega
        rw [flatMap_cons, hbytes, hts, Nat.min_eq_right (by omega), ← List.append_assoc,
          ← bytesFrom_add, ← hsplit]
      · refine hfinal.cons ?_
        rw [hflag, Bool.and_eq_false_iff]
        exact .inl (Bool.not_eq_true _ ▸ hlast)

theorem plans_rest (hp : p.Sized g) (m : ℕ) :
    ∀ {s : AddrGen} {r y k : ℕ}, r + 1 + m = (regs p.dimTiles).prod →
    AtRow g p s r → InRow g s y k → ∃ ts, Plans (out g) (step g) s ts ∧
      ts.flatMap (Token.bytes g) = bytesFrom g y k ++
        (List.range' (r + 1) m).flatMap (fun r' => bytesFrom g (cursorAt g p r') p.rowLenBytes) ∧
      LastOnFinal ts := by
  induction m with
  | zero =>
    intro s r y k hrows hrow hline
    refine plans_row hp (fun s' hrow' hactive hlast => ?_) hrow hline
    have houter : s'.isLastOuter = true := by
      rw [hrow'.isLastOuter hp]
      exact decide_eq_true (by omega)
    refine ⟨[], .done ?_, rfl, by rw [if_pos (by omega)]⟩
    simp [out, step, hactive, hlast, houter]
  | succ m ih =>
    intro s r y k hrows hrow hline
    refine plans_row hp (fun s' hrow' hactive hlast => ?_) hrow hline
    have houter : s'.isLastOuter = false := by
      rw [hrow'.isLastOuter hp]
      exact decide_eq_false (by omega)
    have hstep : s'.step g true = s'.nextRow g := by
      simp [step, hactive, hlast, houter]
    obtain ⟨hrow'', hline''⟩ := hrow'.nextRow hp hactive (by omega)
    obtain ⟨ts, hplans, hts, hfinal⟩ := ih (by omega) hrow'' hline''
    refine ⟨ts, hstep ▸ hplans, ?_, by rw [if_neg (by omega)]; exact hfinal⟩
    rw [hts, List.range'_succ, flatMap_cons]

theorem tokens_cover (hp : p.Sized g) :
    ∃ ts, (∀ outReady, tokens g p outReady = ts.take (outReady.count true)) ∧
    ts.flatMap (Token.bytes g) = (range (regs p.dimTiles).prod).flatMap
      (fun r => bytesFrom g (cursorAt g p r) p.rowLenBytes) ∧ LastOnFinal ts := by
  obtain ⟨hrow, hline⟩ := atRow_start hp
  have hpos := prod_pos hp.regs_pos
  obtain ⟨ts, hplans, hts, hfinal⟩ :=
    plans_rest hp ((regs p.dimTiles).prod - 1) (by omega) hrow hline
  refine ⟨ts, fun outReady => hplans.taken_eq (fun s => ?_) (fun s hs => ?_) outReady,
    ?_, hfinal⟩
  · simp [step]
  · have hidle : s.active = false := by
      by_contra hactive
      rw [out, if_pos (Bool.not_eq_false _ ▸ hactive)] at hs
      exact some_ne_none _ hs
    simp [step, hidle]
  · rw [hts, List.range_eq_range']
    obtain ⟨n, hn⟩ : ∃ n, (regs p.dimTiles).prod = n + 1 :=
      ⟨_, (Nat.sub_add_cancel hpos).symm⟩
    rw [hn, Nat.add_sub_cancel, List.range'_succ, flatMap_cons]
    rfl

end Tiles

def tileRows (q : Launch) : List ℕ := [q.decTile1, q.decTile2, q.decTile3, q.decTile4]

def rowAddr (g : Geometry) (q : Launch) (r : ℕ) : ℕ :=
  let i := digits (tileRows q) r
  (q.desc.baseAddr + (q.coords 0).toNat * 2 ^ q.esizeEnc +
    (q.decCoord 1 + i.getD 0 0) * q.decStride0 + (q.decCoord 2 + i.getD 1 0) * q.decStride1 +
    (q.decCoord 3 + i.getD 2 0) * q.decStride2 + (q.decCoord 4 + i.getD 3 0) * q.decStride3) %
    2 ^ g.addrWidth

/-- Under any pattern of `out_ready` an initial part of one list of tokens is taken; they cover the
rows in odometer order, each byte once, and only the final one is marked. -/
def CoversTile (g : Geometry) (p : Params) (q : Launch) : Prop :=
  ∃ ts, (∀ outReady, tokens g p outReady = ts.take (outReady.count true)) ∧
    ts.flatMap (Token.bytes g) = (range (tileRows q).prod).flatMap
      (fun r => bytesFrom g (rowAddr g q r) (q.decTile0 * 2 ^ q.esizeEnc)) ∧ LastOnFinal ts

/-- The 32-bit products add up to the offset of the first row, and each difference of 32 bits that
is used is what the stepping dimension gains and all those below it give back. -/
def StepsFit (g : Geometry) (q : Launch) : Prop :=
  (((q.coords 0).toNat * 2 ^ q.esizeEnc) % 2 ^ 32 + (q.decCoord 1 * q.decStride0) % 2 ^ 32 +
      (q.decCoord 2 * q.decStride1) % 2 ^ 32 + (q.decCoord 3 * q.decStride2) % 2 ^ 32 +
      (q.decCoord 4 * q.decStride3) % 2 ^ 32 : ℤ) ≡
    (q.coords 0).toNat * 2 ^ q.esizeEnc + q.decCoord 1 * q.decStride0 +
      q.decCoord 2 * q.decStride1 + q.decCoord 3 * q.decStride2 +
      q.decCoord 4 * q.decStride3 [ZMOD 2 ^ g.addrWidth] ∧
  (2 ≤ q.decTile2 → (q.decStride1 - (q.decTile1 - 1) * q.decStride0 : ℤ) % 2 ^ 32 ≡
    q.decStride1 - (q.decTile1 - 1) * q.decStride0 [ZMOD 2 ^ g.addrWidth]) ∧
  (2 ≤ q.decTile3 → (q.decStride2 - (q.decTile2 - 1) * q.decStride1 : ℤ) % 2 ^ 32 ≡
    q.decStride2 - (q.decTile2 - 1) * q.decStride1 -
      (q.decTile1 - 1) * q.decStride0 [ZMOD 2 ^ g.addrWidth]) ∧
  (2 ≤ q.decTile4 → (q.decStride3 - (q.decTile3 - 1) * q.decStride2 : ℤ) % 2 ^ 32 ≡
    q.decStride3 - (q.decTile3 - 1) * q.decStride2 - (q.decTile2 - 1) * q.decStride1 -
      (q.decTile1 - 1) * q.decStride0 [ZMOD 2 ^ g.addrWidth])

instance (g : Geometry) (q : Launch) : Decidable (StepsFit g q) := by
  unfold StepsFit
  infer_instance

def TilesNonzero (q : Launch) : Prop := 0 < q.decTile0 ∧ ∀ t ∈ tileRows q, 0 < t

instance (q : Launch) : Decidable (TilesNonzero q) := by
  unfold TilesNonzero
  infer_instance

section Addresses

variable {g : Geometry} {q : Launch}

theorem regs_dimTiles (g : Geometry) (q : Launch) : regs (setupParams g q).dimTiles = tileRows q :=
  rfl

theorem decRowLenBytes_eq (q : Launch) :
    q.decRowLenBytes = q.decTile0 * 2 ^ q.esizeEnc ∧ q.decTile0 * 2 ^ q.esizeEnc < 2 ^ 19 := by
  have htile : q.decTile0 < 2 ^ 16 := mod_lt _ (by omega)
  have hesize : 2 ^ q.esizeEnc ≤ 2 ^ 3 :=
    Nat.pow_le_pow_right (by omega) (Nat.le_of_lt_succ (mod_lt _ (by omega)))
  have hlt : q.decTile0 * 2 ^ q.esizeEnc < 2 ^ 19 :=
    lt_of_le_of_lt (Nat.mul_le_mul_left _ hesize) (by omega)
  exact ⟨mod_eq_of_lt (by omega), hlt⟩

theorem sized_setupParams (hq : TilesNonzero q) : (setupParams g q).Sized g := by
  have hrow := decRowLenBytes_eq q
  have hline := lineSize_le g
  obtain ⟨h0, htiles⟩ := hq
  simp only [tileRows, mem_cons, List.not_mem_nil, or_false, forall_eq_or_imp, forall_eq] at htiles
  refine ⟨fun d => ?_, fun d => ?_, ?_, ?_, mod_lt _ (two_pow_pos _)⟩
  · fin_cases d
    exacts [htiles.1, htiles.2.1, htiles.2.2.1, htiles.2.2.2]
  · fin_cases d
    all_goals
      simp only [setupParams, launchParams, Launch.decTile1, Launch.decTile2, Launch.decTile3,
        Launch.decTile4]
      dsimp
      split <;> omega
  · show 0 < q.decRowLenBytes
    rw [hrow.1]
    exact mul_pos h0 (two_pow_pos _)
  · show q.decRowLenBytes + 2 * g.lineSize ≤ 2 ^ 32
    omega

theorem bytesFrom_inj {a b n : ℕ} (hn : 0 < n) (h : bytesFrom g a n = bytesFrom g b n) :
    a % 2 ^ g.addrWidth = b % 2 ^ g.addrWidth := by
  have h0 := congrArg (·[0]?) h
  simpa [bytesFrom, hn] using h0

theorem flatMap_bytesFrom_inj {a b : ℕ → ℕ} {n : ℕ} (hn : 0 < n) (m : ℕ)
    (h : (range m).flatMap (fun r => bytesFrom g (a r) n) = (range m).flatMap fun r =>
      bytesFrom g (b r) n) : ∀ r < m, a r % 2 ^ g.addrWidth = b r % 2 ^ g.addrWidth := by
  induction m with
  | zero => exact fun r hr => absurd hr (by omega)
  | succ m ih =>
    rw [List.range_succ, List.flatMap_append, List.flatMap_append, List.flatMap_singleton,
      List.flatMap_singleton] at h
    obtain ⟨hinit, hlast⟩ := List.append_inj' h (by simp [bytesFrom])
    intro r hr
    rcases Nat.lt_succ_iff_lt_or_eq.mp hr with hlt | rfl
    · exact ih hinit r hlt
    · exact bytesFrom_inj hn hlast

theorem rowAddr_lt (g : Geometry) (q : Launch) (r : ℕ) : rowAddr g q r < 2 ^ g.addrWidth :=
  mod_lt _ (two_pow_pos _)

theorem coversTile_iff (hq : TilesNonzero q) : CoversTile g (setupParams g q) q ↔
    ∀ r < (tileRows q).prod, cursorAt g (setupParams g q) r = rowAddr g q r := by
  have hp := sized_setupParams (g := g) hq
  obtain ⟨hrow, -⟩ := decRowLenBytes_eq q
  have hlen : (setupParams g q).rowLenBytes = q.decTile0 * 2 ^ q.esizeEnc := hrow
  obtain ⟨ts, htokens, hts, hlast⟩ := tokens_cover hp
  rw [regs_dimTiles, hlen] at hts
  constructor
  · rintro ⟨ts', htokens', hts', -⟩ r hr
    -- with as many ready cycles as either list is long both are taken completely
    have hsame : ts = ts' := by
      have h := (htokens (replicate (ts.length + ts'.length) true)).symm.trans
        (htokens' (replicate (ts.length + ts'.length) true))
      rw [List.count_replicate_self] at h
      rwa [List.take_of_length_le (by omega), List.take_of_length_le (by omega)] at h
    rw [← hsame, hts] at hts'
    have h := flatMap_bytesFrom_inj (hlen ▸ hp.row) _ hts' r hr
    rwa [mod_eq_of_lt (cursorAt_lt hp r), mod_eq_of_lt (rowAddr_lt g q r)] at h
  · intro hrows
    refine ⟨ts, htokens, hts.trans (List.flatMap_congr fun r hr => ?_), hlast⟩
    rw [hrows r (List.mem_range.mp hr)]

def strides (q : Launch) : List ℤ := [q.decStride0, q.decStride1, q.decStride2, q.decStride3]

def firstAddr (q : Launch) : ℤ :=
  q.desc.baseAddr + ((q.coords 0).toNat * 2 ^ q.esizeEnc + q.decCoord 1 * q.decStride0 +
    q.decCoord 2 * q.decStride1 + q.decCoord 3 * q.decStride2 + q.decCoord 4 * q.decStride3)

theorem cast_mod_eq_iff {x y M : ℕ} (hx : x < M) : x = y % M ↔ (x : ℤ) ≡ y [ZMOD M] := by
  rw [Int.natCast_modEq_iff, Nat.ModEq, mod_eq_of_lt hx]

theorem cursor_eq_iff {x : ℕ} (hx : x < 2 ^ g.addrWidth) (r : ℕ) :
    x = rowAddr g q r ↔
    (x : ℤ) ≡
      firstAddr q + weigh (strides q) (digits (tileRows q) r) [ZMOD 2 ^ g.addrWidth] := by
  rw [rowAddr, cast_mod_eq_iff hx]
  simp only [tileRows, digits, List.getD_cons_zero, List.getD_cons_succ, firstAddr, strides, weigh]
  push_cast
  refine iff_of_eq (congrArg (fun z : ℤ => (x : ℤ) ≡ z [ZMOD 2 ^ g.addrWidth]) ?_)
  ring

theorem sub32_cast (a b : ℕ) : (sub32 a b : ℤ) = (a - b : ℤ) % 2 ^ 32 := by
  unfold sub32
  omega

theorem delta_cast {tile : ℕ} (htile : 0 < tile) (hlt : tile < 2 ^ 32) (a b : ℕ) :
    (sub32 a (Word.mul32 (sub32 tile 1) b) : ℤ) = (a - (tile - 1) * b : ℤ) % 2 ^ 32 := by
  have hpred : sub32 tile 1 = tile - 1 := by
    unfold sub32
    omega
  have hcast : (((tile - 1 : ℕ) * b : ℕ) : ℤ) = (tile - 1 : ℤ) * b := by
    rw [Nat.cast_mul, Nat.cast_sub htile, Nat.cast_one]
  rw [sub32_cast, hpred, Word.mul32, ← hcast]
  omega

theorem initialGmemBase_cast (g : Geometry) (q : Launch) :
    ((setupParams g q).initialGmemBase : ℤ) ≡ q.desc.baseAddr +
    (((q.coords 0).toNat * 2 ^ q.esizeEnc) % 2 ^ 32 + (q.decCoord 1 * q.decStride0) % 2 ^ 32 +
      (q.decCoord 2 * q.decStride1) % 2 ^ 32 + (q.decCoord 3 * q.decStride2) % 2 ^ 32 +
      (q.decCoord 4 * q.decStride3) % 2 ^ 32) [ZMOD 2 ^ g.addrWidth] := by
  simp only [setupParams, Launch.decDim0Offset, Word.mul32]
  push_cast
  refine (Int.mod_modEq _ _).trans ?_
  exact congrArg (· % (2 : ℤ) ^ g.addrWidth) (by ring)

theorem of_two_le_ite {P : Prop} [Decidable P] {n : ℕ} (h : 2 ≤ if P then n else 1) : P := by
  by_contra hP
  rw [if_neg hP] at h
  omega

theorem forall_rows_iff {P : ℕ → Prop} (h0 : P 0) :
    (∀ k r, (tileRows q)[k]? = some r → 2 ≤ r → P k) ↔
    (2 ≤ q.decTile2 → P 1) ∧ (2 ≤ q.decTile3 → P 2) ∧ (2 ≤ q.decTile4 → P 3) := by
  refine ⟨fun h => ⟨h 1 _ rfl, h 2 _ rfl, h 3 _ rfl⟩, fun ⟨h1, h2, h3⟩ k r hk hr => ?_⟩
  match k, hk with
  | 0, _ => exact h0
  | 1, rfl => exact h1 hr
  | 2, rfl => exact h2 hr
  | 3, rfl => exact h3 hr

theorem stepsFit_iff (hq : TilesNonzero q) : StepsFit g q ↔
    (setupParams g q).initialGmemBase ≡ firstAddr q [ZMOD 2 ^ g.addrWidth] ∧ ∀ k r,
      (tileRows q)[k]? = some r → 2 ≤ r → ((regs (setupParams g q).delta).getD k 0 : ℤ) ≡
        carryStep (tileRows q) (strides q) k [ZMOD 2 ^ g.addrWidth] := by
  have hp := sized_setupParams (g := g) hq
  have hstart := initialGmemBase_cast g q
  have hmod : ∀ {x y z M : ℤ}, y = x → (x ≡ z [ZMOD M] ↔ y ≡ z [ZMOD M]) :=
    fun h => h ▸ Iff.rfl
  rw [StepsFit, firstAddr, forall_rows_iff Int.ModEq.rfl]
  refine and_congr ⟨fun h => hstart.trans (h.add_left _),
    fun h => Int.ModEq.add_left_cancel' _ (hstart.symm.trans h)⟩
    (and_congr (imp_congr_right fun ht => ?_)
      (and_congr (imp_congr_right fun ht => ?_) (imp_congr_right fun ht => ?_)))
  all_goals
    refine hmod ((congrArg Nat.cast (if_pos (of_two_le_ite ht))).trans (delta_cast ?_ ?_ _ _))
  exacts [hp.tiles 0, hp.tiles_lt 0, hp.tiles 1, hp.tiles_lt 1, hp.tiles 2, hp.tiles_lt 2]

theorem coversTile_setup_iff (hq : TilesNonzero q) : CoversTile g (setupParams g q) q ↔
    StepsFit g q := by
  have hp := sized_setupParams (g := g) hq
  have hcur : ∀ n, n + 1 < (tileRows q).prod →
      (cursorAt g (setupParams g q) (n + 1) : ℤ) ≡ cursorAt g (setupParams g q) n +
      (regs (setupParams g q).delta).getD (carries (tileRows q) (digits (tileRows q) n))
      0 [ZMOD 2 ^ g.addrWidth] := by
    intro n _
    rw [cursorAt, regs_dimTiles]
    push_cast
    exact Int.mod_modEq _ _
  have hiff := cursor_iff (A := firstAddr q) (fun n => (cursorAt g (setupParams g q) n : ℤ))
    (fun k => ((regs (setupParams g q).delta).getD k 0 : ℤ)) hq.2 (show (strides q).length =
      (tileRows q).length from rfl) hcur
  rw [coversTile_iff hq, stepsFit_iff hq]
  refine Iff.trans ?_ hiff
  exact forall₂_congr fun r _ => cursor_eq_iff (cursorAt_lt hp r) r

theorem started_params {cs : List Cycle} {k : ℕ} {p : Params}
    (hp : (Setup.started g .reset cs)[k]? = some p) :
    ∃ q, (Setup.accepted g .reset cs)[k]? = some q ∧ p = setupParams g q := by
  have hidle : Pending g Setup.reset none := .idle rfl
  obtain ⟨rest, hrest⟩ := hidle.started_prefix cs
  have hlt := (List.getElem?_eq_some_iff.mp hp).1
  have hmap : ((Setup.accepted g .reset cs).map (setupParams g))[k]? = some p := by
    rw [← hp, ← List.getElem?_append_left hlt, hrest]
    rfl
  rw [List.getElem?_map] at hmap
  obtain ⟨q, hq, hpq⟩ := map_eq_some_iff.mp hmap
  exact ⟨q, hq, hpq.symm⟩

/-- Whatever runs before, the tokens of a transfer cover its tile exactly if the 32-bit offsets and
differences of its launch fit. -/
theorem tile_tokens_iff (g : Geometry) (cs : List Cycle) (k : ℕ) {p : Params}
    (hp : (Setup.started g .reset cs)[k]? = some p) :
    ∃ q, (Setup.accepted g .reset cs)[k]? = some q ∧
    (TilesNonzero q → (CoversTile g p q ↔ StepsFit g q)) := by
  obtain ⟨q, hq, rfl⟩ := started_params hp
  exact ⟨q, hq, coversTile_setup_iff⟩

def sampleLaunch (rank : BitVec 32) (tile01 tile23 stride0 stride1 stride2 : BitVec 32) :
    Launch where
  desc := ⟨0x80000040, 16 ||| rank, tile01, tile23, 1, 0, 64, 64, 64, 64, stride0, stride1,
    stride2, 0, 0⟩
  smemAddr := 0
  coords := fun _ => 0

def sampleCycles (q : Launch) : List Cycle := ⟨some q, false⟩ :: replicate 12 ⟨none, false⟩

/-- 64-byte lines and 32-bit addresses. -/
abbrev sampleGeometry : Geometry := ⟨6, 32, 14, by decide, by decide⟩

def sampleParams (q : Launch) : Option Params :=
  (Setup.started sampleGeometry .reset (sampleCycles q))[0]?

abbrev rank3 : Launch := sampleLaunch 3 0x00040008 0x00010002 0x100 0x1000 0

theorem tile_tokens_iff_rank3 : ∃ p, sampleParams rank3 = some p ∧
    CoversTile sampleGeometry p rank3 := by
  obtain ⟨p, hp⟩ := isSome_iff_exists.mp (by decide : (sampleParams rank3).isSome = true)
  obtain ⟨q, hq, hiff⟩ := tile_tokens_iff _ _ 0 hp
  cases hq
  exact ⟨p, hp, (hiff (by decide)).mpr (by decide)⟩

abbrev rank4 : Launch := sampleLaunch 4 0x00020008 0x00020001 0x100 0x1000 0x10000

/-- A tile of rank 4 in which the dimensions 1 and 3 have two indices each: the step of dimension 3
does not give back what dimension 1 has gained. -/
theorem tile_tokens_miss : ∃ p, sampleParams rank4 = some p ∧
    ¬ CoversTile sampleGeometry p rank4 := by
  obtain ⟨p, hp⟩ := isSome_iff_exists.mp (by decide : (sampleParams rank4).isSome = true)
  obtain ⟨q, hq, hparams⟩ := started_params hp
  cases hq
  refine ⟨p, hp, ?_⟩
  rw [hparams, coversTile_setup_iff (by decide)]
  decide

end Addresses

end VortexGpu.Rtl.Dxa

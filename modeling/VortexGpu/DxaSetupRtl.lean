import VortexGpu.Word
import Mathlib.Data.Fin.VecNotation
import Mathlib.Data.Fintype.Basic
import Mathlib.Tactic.FinCases

/-!
# The setup stage of the tile engine

`VX_dxa_setup`: a launch is decoded, its products are formed by two pipelined multipliers that take
one pair of operands every other cycle, and the parameters of the transfer are staged until the
transfer before it is done. All widths are those of the registers.
-/

namespace VortexGpu.Rtl.Dxa

open Word

structure Geometry where
  lineBits : ℕ
  addrWidth : ℕ
  smemWidth : ℕ
  line_le : lineBits ≤ 30
  addr_ge : 32 ≤ addrWidth

structure Descriptor where
  baseAddr : ℕ
  metaWord : BitVec 32
  tile01 : BitVec 32
  tile23 : BitVec 32
  tile4 : BitVec 32
  cfill : BitVec 32
  size1 : BitVec 32
  size2 : BitVec 32
  size3 : BitVec 32
  size4 : BitVec 32
  stride0 : BitVec 32
  stride1 : BitVec 32
  stride2 : BitVec 32
  stride3 : BitVec 32
  estride2 : BitVec 32

/-- A launch: the fields of `dxa_req_data_t` that the parameters depend on. -/
structure Launch where
  desc : Descriptor
  smemAddr : ℕ
  coords : ℕ → BitVec 32

namespace Launch

variable (q : Launch)

def esizeEnc : ℕ := q.desc.metaWord.toNat / 8 % 4
def decRank : ℕ := q.desc.metaWord.toNat % 8
def decDestMode : ℕ := q.desc.metaWord.toNat / 32 % 4
def decDestKmajor : Bool := q.decDestMode == 1

def decTile0 : ℕ := q.desc.tile01.toNat % 2 ^ 16
def decTile1 : ℕ := if 2 ≤ q.decRank then q.desc.tile01.toNat / 2 ^ 16 else 1
def decTile2 : ℕ := if 3 ≤ q.decRank then q.desc.tile23.toNat % 2 ^ 16 else 1
def decTile3 : ℕ := if 4 ≤ q.decRank then q.desc.tile23.toNat / 2 ^ 16 else 1
def decTile4 : ℕ := if 5 ≤ q.decRank then q.desc.tile4.toNat else 1

def decStride0 : ℕ := if 2 ≤ q.decRank then q.desc.stride0.toNat else 0
def decStride1 : ℕ := if 3 ≤ q.decRank then q.desc.stride1.toNat else 0
def decStride2 : ℕ := if 4 ≤ q.decRank then q.desc.stride2.toNat else 0
def decStride3 : ℕ := if 5 ≤ q.decRank then q.desc.stride3.toNat else 0

def decSize1 : ℕ := if 2 ≤ q.decRank then q.desc.size1.toNat else 1
def decSize2 : ℕ := if 3 ≤ q.decRank then q.desc.size2.toNat else 1
def decSize3 : ℕ := if 4 ≤ q.decRank then q.desc.size3.toNat else 1
def decSize4 : ℕ := if 5 ≤ q.decRank then q.desc.size4.toNat else 1

def decCoord (d : ℕ) : ℕ := if d < q.decRank then (q.coords d).toNat else 0

def decElemBytes : ℕ := 2 ^ q.esizeEnc
def decRowLenBytes : ℕ := q.decTile0 * 2 ^ q.esizeEnc % 2 ^ 32
def decDim0Offset : ℕ := (q.coords 0).toNat * 2 ^ q.esizeEnc % 2 ^ 32
def decPerLaneStrideBytes : ℕ := q.decTile1 * 2 ^ q.esizeEnc % 2 ^ 16

end Launch

/-- `find_lg2`: the position of the highest bit set above bit 0. -/
def findLg2 (v : ℕ) : ℕ := ((List.range 16).filter fun i => 1 ≤ i ∧ v.testBit i).getLastD 0

def oobSub (sz coord : ℕ) : ℕ := if coord < sz then sz - coord else 0

structure Params where
  initialGmemBase : ℕ
  initialSmemBase : ℕ
  rowLenBytes : ℕ
  delta : Fin 4 → ℕ
  dimTiles : Fin 4 → ℕ
  oobLimit : Fin 4 → ℕ
  cfill : ℕ
  destKmajor : Bool
  perLaneStrideBytes : ℕ
  elemBytes : ℕ
  destMode : ℕ
  lgRatio : ℕ
  lgTcN : ℕ
  lgNsteps : ℕ

def Params.zero : Params :=
  ⟨0, 0, 0, fun _ => 0, fun _ => 0, fun _ => 0, 0, false, 0, 0, 0, 0, 0, 0⟩

structure Latched where
  rank : ℕ
  tile1 : ℕ
  tile2 : ℕ
  tile3 : ℕ
  coord1 : ℕ
  coord2 : ℕ
  coord3 : ℕ
  coord4 : ℕ
  stride0 : ℕ
  stride1 : ℕ
  stride2 : ℕ
  stride3 : ℕ

inductive SetupState
  | idle | running | staged
deriving DecidableEq, Repr

structure Operands where
  offA : ℕ
  offB : ℕ
  dltA : ℕ
  dltB : ℕ

structure Products where
  off : ℕ
  dlt : ℕ

/-- The registers. The multipliers are the registered operands and two pipeline stages. -/
structure Setup where
  transferActive : Bool
  state : SetupState
  ctr : ℕ
  pipelineStart : Bool
  params : Params
  staged : Params
  lat : Latched
  operands : Operands
  stage1 : Products
  stage2 : Products

def Setup.reset : Setup :=
  ⟨false, .idle, 0, false, .zero, .zero, ⟨0, 0, 0, 0, 0, 0, 0, 0, 0, 0, 0, 0⟩,
    ⟨0, 0, 0, 0⟩, ⟨0, 0⟩, ⟨0, 0⟩⟩

def sub32 (a b : ℕ) : ℕ := (a + (2 ^ 32 - b % 2 ^ 32)) % 2 ^ 32

def mulOperands (lat : Latched) (ctr : ℕ) : Operands :=
  match ctr with
  | 0 => ⟨lat.coord1, lat.stride0, 0, 0⟩
  | 2 =>
    if 3 ≤ lat.rank then ⟨lat.coord2, lat.stride1, sub32 lat.tile1 1, lat.stride0⟩
    else ⟨0, 0, 0, 0⟩
  | 4 =>
    if 4 ≤ lat.rank then ⟨lat.coord3, lat.stride2, sub32 lat.tile2 1, lat.stride1⟩
    else ⟨0, 0, 0, 0⟩
  | 6 =>
    if 5 ≤ lat.rank then ⟨lat.coord4, lat.stride3, sub32 lat.tile3 1, lat.stride2⟩
    else ⟨0, 0, 0, 0⟩
  | _ => ⟨0, 0, 0, 0⟩

def Operands.products (o : Operands) : Products := ⟨mul32 o.offA o.offB, mul32 o.dltA o.dltB⟩

def doneAtCtr (rank : ℕ) : ℕ :=
  if rank ≤ 2 then 3 else if rank = 3 then 5 else if rank = 4 then 7 else 9

def latch (q : Launch) : Latched where
  rank := q.decRank
  tile1 := q.decTile1
  tile2 := q.decTile2
  tile3 := q.decTile3
  coord1 := q.decCoord 1
  coord2 := q.decCoord 2
  coord3 := q.decCoord 3
  coord4 := q.decCoord 4
  stride0 := q.decStride0
  stride1 := q.decStride1
  stride2 := q.decStride2
  stride3 := q.decStride3

def launchParams (g : Geometry) (q : Launch) : Params where
  initialGmemBase := (q.desc.baseAddr + q.decDim0Offset) % 2 ^ g.addrWidth
  initialSmemBase := q.smemAddr
  rowLenBytes := q.decRowLenBytes
  delta := ![q.decStride0, 0, 0, 0]
  dimTiles := ![q.decTile1, q.decTile2, q.decTile3, q.decTile4]
  oobLimit := ![oobSub q.decSize1 (q.decCoord 1), oobSub q.decSize2 (q.decCoord 2),
    oobSub q.decSize3 (q.decCoord 3), oobSub q.decSize4 (q.decCoord 4)]
  cfill := q.desc.cfill.toNat
  destKmajor := q.decDestKmajor
  perLaneStrideBytes := q.decPerLaneStrideBytes
  elemBytes := q.decElemBytes % 16
  destMode := q.decDestMode
  lgRatio := if q.esizeEnc ≤ 2 then 2 - q.esizeEnc else 0
  lgTcN := findLg2 (q.desc.estride2.toNat % 2 ^ 16)
  lgNsteps := (findLg2 q.decTile0 + 16 - findLg2 (q.desc.estride2.toNat % 2 ^ 16)) % 16

def withDelta (delta : Fin 4 → ℕ) (d v : ℕ) : Fin 4 → ℕ :=
  fun i => if i.val = d then v else delta i

def capture (g : Geometry) (lat : Latched) (ctr : ℕ) (product : Products) (p : Params) : Params :=
  let base := (p.initialGmemBase + product.off) % 2 ^ g.addrWidth
  if ctr = 3 then { p with initialGmemBase := base }
  else if ctr = 5 ∧ 3 ≤ lat.rank then
    { p with initialGmemBase := base, delta := withDelta p.delta 1 (sub32 lat.stride1 product.dlt) }
  else if ctr = 7 ∧ 4 ≤ lat.rank then
    { p with initialGmemBase := base, delta := withDelta p.delta 2 (sub32 lat.stride2 product.dlt) }
  else if ctr = 9 ∧ 5 ≤ lat.rank then
    { p with initialGmemBase := base, delta := withDelta p.delta 3 (sub32 lat.stride3 product.dlt) }
  else p

structure Cycle where
  req : Option Launch
  transferDone : Bool

namespace Setup

def promoteNow (s : Setup) (c : Cycle) : Bool :=
  decide (s.state = .staged) && (!s.transferActive || c.transferDone)

def launchAccept (s : Setup) (c : Cycle) : Option Launch := if s.state = .idle then c.req else none

/-- The registers that change whatever the state is. -/
def clocked (s : Setup) (c : Cycle) : Setup :=
  { s with
    pipelineStart := s.promoteNow c
    params := if s.promoteNow c then s.staged else s.params
    transferActive := s.promoteNow c || (s.transferActive && !c.transferDone)
    operands := mulOperands s.lat s.ctr
    stage1 := s.operands.products
    stage2 := s.stage1 }

def step (g : Geometry) (s : Setup) (c : Cycle) : Setup :=
  let s' := s.clocked c
  match s.state with
  | .idle =>
    match s.launchAccept c with
    | some q => { s' with staged := launchParams g q, lat := latch q, ctr := 0, state := .running }
    | none => s'
  | .running =>
    let staged := capture g s.lat s.ctr s.stage2 s.staged
    if s.ctr = doneAtCtr s.lat.rank then { s' with staged := staged, ctr := 0, state := .staged }
    else { s' with staged := staged, ctr := (s.ctr + 1) % 16 }
  | .staged => if s.promoteNow c then { s' with state := .idle } else s'

def accepted (g : Geometry) : Setup → List Cycle → List Launch
  | _, [] => []
  | s, c :: cs => (s.launchAccept c).toList ++ accepted g (s.step g c) cs

def started (g : Geometry) : Setup → List Cycle → List Params
  | _, [] => []
  | s, c :: cs => (if (s.step g c).pipelineStart then [(s.step g c).params]
      else []) ++ started g (s.step g c) cs

end Setup

def setupParams (g : Geometry) (q : Launch) : Params :=
  { launchParams g q with
    initialGmemBase := (q.desc.baseAddr + q.decDim0Offset + mul32 (q.decCoord 1) q.decStride0 +
      mul32 (q.decCoord 2) q.decStride1 + mul32 (q.decCoord 3) q.decStride2 +
      mul32 (q.decCoord 4) q.decStride3) % 2 ^ g.addrWidth
    delta := ![q.decStride0,
      if 3 ≤ q.decRank then sub32 q.decStride1 (mul32 (sub32 q.decTile1 1) q.decStride0) else 0,
      if 4 ≤ q.decRank then sub32 q.decStride2 (mul32 (sub32 q.decTile2 1) q.decStride1) else 0,
      if 5 ≤ q.decRank then sub32 q.decStride3 (mul32 (sub32 q.decTile3 1) q.decStride2) else 0] }

/-- The staged parameters when the counter is at `ctr`: a capture sees the operands of three cycles
ago. -/
def stagedAt (g : Geometry) (q : Launch) : ℕ → Params
  | 0 => launchParams g q
  | ctr + 1 => capture g (latch q) ctr (mulOperands (latch q) (ctr - 3)).products (stagedAt g q ctr)

section Phases

variable {g : Geometry} {q : Launch}

theorem capture_early {lat : Latched} {ctr : ℕ} (h : ctr < 3) (x y : Products) (p : Params) :
    capture g lat ctr x p = capture g lat ctr y p := by
  have h3 : ¬ ctr = 3 := by omega
  have h5 : ¬ (ctr = 5 ∧ 3 ≤ lat.rank) := by omega
  have h7 : ¬ (ctr = 7 ∧ 4 ≤ lat.rank) := by omega
  have h9 : ¬ (ctr = 9 ∧ 5 ≤ lat.rank) := by omega
  simp only [capture, if_neg h3, if_neg h5, if_neg h7, if_neg h9]

theorem mul32_zero_left (b : ℕ) : mul32 0 b = 0 := by
  rw [mul32, zero_mul, Nat.zero_mod]

theorem withDelta_vec1 (a b c d x : ℕ) : withDelta ![a, b, c, d] 1 x = ![a, x, c, d] := by
  funext i
  fin_cases i <;> rfl

theorem withDelta_vec2 (a b c d x : ℕ) : withDelta ![a, b, c, d] 2 x = ![a, b, x, d] := by
  funext i
  fin_cases i <;> rfl

theorem withDelta_vec3 (a b c d x : ℕ) : withDelta ![a, b, c, d] 3 x = ![a, b, c, x] := by
  funext i
  fin_cases i <;> rfl

theorem stagedAt_done : stagedAt g q (doneAtCtr q.decRank + 1) = setupParams g q := by
  have hcases : q.decRank ≤ 2 ∨ q.decRank = 3 ∨ q.decRank = 4 ∨ 5 ≤ q.decRank := by omega
  rcases hcases with h | h | h | h
  · have h3 : ¬ 3 ≤ q.decRank := by omega
    have h4 : ¬ 4 ≤ q.decRank := by omega
    have h5 : ¬ 5 ≤ q.decRank := by omega
    have hdone : doneAtCtr q.decRank = 3 := if_pos h
    have hcoord : q.decCoord 2 = 0 ∧ q.decCoord 3 = 0 ∧ q.decCoord 4 = 0 :=
      ⟨if_neg h3, if_neg h4, if_neg h5⟩
    rw [hdone]
    simp [stagedAt, capture, setupParams, mulOperands, latch, Operands.products, launchParams, h3,
      h4, h5, hcoord, mul32_zero_left]
  · have hdone : doneAtCtr q.decRank = 5 := by rw [h]; rfl
    have hcoord : q.decCoord 3 = 0 ∧ q.decCoord 4 = 0 :=
      ⟨if_neg (by rw [h]; decide), if_neg (by rw [h]; decide)⟩
    rw [hdone]
    simp [stagedAt, capture, setupParams, mulOperands, latch, Operands.products, launchParams,
      h, hcoord, mul32_zero_left, withDelta_vec1, add_assoc]
  · have hdone : doneAtCtr q.decRank = 7 := by rw [h]; rfl
    have hcoord : q.decCoord 4 = 0 := if_neg (by rw [h]; decide)
    rw [hdone]
    simp [stagedAt, capture, setupParams, mulOperands, latch, Operands.products, launchParams,
      h, hcoord, mul32_zero_left, withDelta_vec1, withDelta_vec2, add_assoc]
  · have h3 : 3 ≤ q.decRank := by omega
    have h4 : 4 ≤ q.decRank := by omega
    have hdone : doneAtCtr q.decRank = 9 := by
      rw [doneAtCtr, if_neg (by omega), if_neg (by omega), if_neg (by omega)]
    rw [hdone]
    simp [stagedAt, capture, setupParams, mulOperands, latch, Operands.products, launchParams,
      h3, h4, h, withDelta_vec1, withDelta_vec2, withDelta_vec3, add_assoc]

end Phases

structure Running (g : Geometry) (s : Setup) (q : Launch) : Prop where
  lat : s.lat = latch q
  ctr : s.ctr ≤ doneAtCtr q.decRank
  staged : s.staged = stagedAt g q s.ctr
  operands : 1 ≤ s.ctr → s.operands = mulOperands (latch q) (s.ctr - 1)
  stage1 : 2 ≤ s.ctr → s.stage1 = (mulOperands (latch q) (s.ctr - 2)).products
  stage2 : 3 ≤ s.ctr → s.stage2 = (mulOperands (latch q) (s.ctr - 3)).products

/-- The launch that has been accepted and not yet started. -/
inductive Pending (g : Geometry) (s : Setup) : Option Launch → Prop
  | idle (h : s.state = .idle) : Pending g s none
  | running {q : Launch} (h : s.state = .running) (hq : Running g s q) : Pending g s (some q)
  | staged {q : Launch} (h : s.state = .staged) (hq : s.staged = setupParams g q) :
    Pending g s (some q)

section Runs

variable {g : Geometry} {s : Setup} {q : Launch}

theorem doneAtCtr_le (rank : ℕ) : doneAtCtr rank ≤ 9 := by
  unfold doneAtCtr
  split_ifs <;> omega

theorem Running.capture_eq (h : Running g s q) :
    capture g s.lat s.ctr s.stage2 s.staged = stagedAt g q (s.ctr + 1) := by
  rw [stagedAt, h.lat, h.staged]
  by_cases hctr : 3 ≤ s.ctr
  · rw [h.stage2 hctr]
  · exact capture_early (by omega) _ _ _

theorem Running.step (h : Running g s q) (hstate : s.state = .running) (c : Cycle) :
    Pending g (s.step g c) (some q) ∧ (s.step g c).pipelineStart = false := by
  have hpromote : s.promoteNow c = false := by simp [Setup.promoteNow, hstate]
  have hrank : s.lat.rank = q.decRank := by rw [h.lat]; rfl
  have hctr := h.ctr
  have hle := doneAtCtr_le q.decRank
  by_cases hdone : s.ctr = doneAtCtr s.lat.rank
  · have hstep : s.step g c = { s.clocked c with
        staged := capture g s.lat s.ctr s.stage2 s.staged, ctr := 0, state := .staged } := by
      simp only [Setup.step, hstate, if_pos hdone]
    rw [hstep]
    refine ⟨.staged rfl ?_, hpromote⟩
    rw [← stagedAt_done, ← hrank, ← hdone]
    exact h.capture_eq
  · have hmod : (s.ctr + 1) % 16 = s.ctr + 1 := Nat.mod_eq_of_lt (by omega)
    have hstep : s.step g c = { s.clocked c with
        staged := capture g s.lat s.ctr s.stage2 s.staged, ctr := s.ctr + 1 } := by
      simp only [Setup.step, hstate, if_neg hdone, hmod]
    rw [hstep]
    refine ⟨.running hstate ⟨h.lat, ?_, h.capture_eq, fun _ => ?_, fun hc => ?_,
      fun hc => ?_⟩, hpromote⟩
    · rw [hrank] at hdone
      exact Nat.lt_of_le_of_ne hctr hdone
    · exact congrArg (mulOperands · s.ctr) h.lat
    · exact congrArg Operands.products (h.operands (Nat.le_of_succ_le_succ hc))
    · exact h.stage1 (Nat.le_of_succ_le_succ hc)

theorem Pending.step {p : Option Launch} (h : Pending g s p) (c : Cycle) :
    ∃ p', Pending g (s.step g c) p' ∧ p.toList ++ (s.launchAccept c).toList =
      (if (s.step g c).pipelineStart then p.toList else []) ++ p'.toList ∧
    ((s.step g c).pipelineStart = true → ∃ q,
      p = some q ∧ (s.step g c).params = setupParams g q) := by
  cases h with
  | idle hidle =>
    have hpromote : s.promoteNow c = false := by simp [Setup.promoteNow, hidle]
    cases haccept : s.launchAccept c with
    | none =>
      have hstep : (s.step g c).state = .idle ∧ (s.step g c).pipelineStart = false := by
        simp [Setup.step, Setup.clocked, hidle, haccept, hpromote]
      exact ⟨none, .idle hstep.1, by simp [hstep.2], fun h => absurd h (by simp [hstep.2])⟩
    | some q =>
      have hstep : (s.step g c).pipelineStart = false := by
        simp [Setup.step, Setup.clocked, hidle, haccept, hpromote]
      refine ⟨some q, .running ?_ ⟨?_, ?_, ?_, ?_, ?_, ?_⟩, by simp [hstep],
        fun h => absurd h (by simp [hstep])⟩ <;>
        simp [Setup.step, Setup.clocked, hidle, haccept, stagedAt]
  | @running q hrun hq =>
    obtain ⟨hpend, hstart⟩ := hq.step hrun c
    have haccept : s.launchAccept c = none := by simp [Setup.launchAccept, hrun]
    exact ⟨some q, hpend, by simp [hstart, haccept], fun h => absurd h (by simp [hstart])⟩
  | @staged q hstaged hq =>
    have haccept : s.launchAccept c = none := by simp [Setup.launchAccept, hstaged]
    by_cases hpromote : s.promoteNow c = true
    · have hstep : (s.step g c).state = .idle ∧ (s.step g c).pipelineStart = true ∧
          (s.step g c).params = s.staged := by
        simp [Setup.step, Setup.clocked, hstaged, hpromote]
      exact ⟨none, .idle hstep.1, by simp [hstep.2.1, haccept],
        fun _ => ⟨q, rfl, hstep.2.2.trans hq⟩⟩
    · have hstep : (s.step g c).state = .staged ∧ (s.step g c).pipelineStart = false ∧
          (s.step g c).staged = s.staged := by
        simp [Setup.step, Setup.clocked, hstaged, hpromote]
      exact ⟨some q, .staged hstep.1 (hstep.2.2.trans hq), by simp [hstep.2.1, haccept],
        fun h => absurd h (by simp [hstep.2.1])⟩

theorem Pending.started_prefix {p : Option Launch} (h : Pending g s p) (cs : List Cycle) :
    Setup.started g s cs <+: (p.toList ++ Setup.accepted g s cs).map (setupParams g) := by
  induction cs generalizing s p with
  | nil => exact List.nil_prefix
  | cons c cs ih =>
    obtain ⟨p', hp', hbalance, hparams⟩ := h.step c
    have hrest := ih hp'
    rw [Setup.started, Setup.accepted, ← List.append_assoc, hbalance]
    cases hstart : (s.step g c).pipelineStart with
    | false =>
      exact hrest
    | true =>
      obtain ⟨q, rfl, hq⟩ := hparams hstart
      rw [if_pos rfl, if_pos rfl, hq]
      exact (List.prefix_append_right_inj _).mpr hrest

end Runs

end VortexGpu.Rtl.Dxa

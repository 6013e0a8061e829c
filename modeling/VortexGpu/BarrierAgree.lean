import VortexGpu.BarrierRtl
import VortexGpu.MixedRadix

/-!
# The hardware barriers against the simulator

The operations of a program go to the barrier unit of the hardware, at most one a clock, and to the
simulator. The hardware unlocks the warps of an operation two clocks later. `view` is what the
store holds once the request in the register is done; it is the state of the simulated barrier.
-/

namespace VortexGpu.Rtl
open Simx (WarpMask WarpBarrier BarTrace BarInstr BarOp BarAction BarResult BarrierUnit barDecodeId)
open Word Runs Nat Option

def unlocked (r : BarResult) (wid : ℕ) : WarpMask :=
  r.resumed ∪ if r.releaseWarp then {wid} else ∅

open Simx.BarrierConfig BarConfig

section
variable [BarConfig]

abbrev BarConfig.Names (raw : ℕ) : Prop :=
  raw < 2 ^ 31 ∧ raw % 256 < numWarps ∧ raw / 256 < numBarriers

/-- The id of a barrier has room for the warps, the simulator for the barriers, and an operand for
the size field next to its flag. -/
structure BarConfig.Fits : Prop where
  warps : numWarps ≤ 256
  barriers : numWarps * numBarriers ≤ 2 ^ 31
  size : barSizeW ≤ 31

section Ids
variable {raw raw' : ℕ}

theorem barAddr_eq (hfits : Fits) (h : Names raw) :
    barAddr raw = raw % 256 * 2 ^ nbBits + raw / 256 := by
  obtain ⟨-, hwarp, hbar⟩ := h
  have hnw : numWarps ≤ 2 ^ nwBits := le_pow_clog (by norm_num) _
  have hnb : numBarriers ≤ 2 ^ nbBits := le_pow_clog (by norm_num) _
  have hbits : nwBits ≤ 8 := clog_le_of_le_pow (x := numWarps) (y := 8) hfits.warps
  have hcta : raw % 2 ^ nwBits = raw % 256 := by
    have hdvd : 2 ^ nwBits ∣ 256 := pow_dvd_pow 2 hbits
    rw [← mod_mod_of_dvd raw hdvd, mod_eq_of_lt (by omega : raw % 256 < 2 ^ nwBits)]
  have hno : (raw >>> 8) % 2 ^ nbBits = raw / 256 := by
    rw [shiftRight_eq_div_pow]
    exact mod_eq_of_lt (by omega : raw / 256 < 2 ^ nbBits)
  rw [barAddr, hcta, hno]

theorem index_lt (h : Names raw) :
    raw % 256 * numBarriers + raw / 256 < numWarps * numBarriers := by
  obtain ⟨-, hwarp, hbar⟩ := h
  calc raw % 256 * numBarriers + raw / 256 < (raw % 256 + 1) * numBarriers := by
        rw [succ_mul]
        omega
    _ ≤ numWarps * numBarriers := mul_le_mul_right _ hwarp

theorem barDecodeId_eq (hfits : Fits) (h : Names raw) :
    barDecodeId raw numBarriers = raw % 256 * numBarriers + raw / 256 := by
  have hlt := index_lt h
  have hroom := hfits.barriers
  obtain ⟨hlocal, -, -⟩ := h
  have hcta : raw &&& 0xff = raw % 256 := and_two_pow_sub_one_eq_mod raw 8
  have hno : (raw >>> 8) &&& 0x7fffff = raw / 256 := by
    rw [shiftRight_eq_div_pow]
    exact (and_two_pow_sub_one_eq_mod (raw / 256) 23).trans (mod_eq_of_lt (by omega))
  have hflag : raw &&& 0x80000000 = 0 := by
    refine (and_two_pow raw 31).trans ?_
    rw [testBit_lt_two_pow hlocal]
    rfl
  rw [barDecodeId]
  simp only [hcta, hno, hflag, or_zero]
  rw [mul32_of_lt (by omega), add32_of_lt (by omega)]

omit [BarConfig] in
theorem raw_inj {k : ℕ} (h : raw / 256 < k) (h' : raw' / 256 < k)
    (heq : raw % 256 * k + raw / 256 = raw' % 256 * k + raw' / 256) : raw = raw' := by
  obtain ⟨hmod, hdiv⟩ := MixedRadix.block_div_mod (q := raw % 256) h
  obtain ⟨hmod', hdiv'⟩ := MixedRadix.block_div_mod (q := raw' % 256) h'
  rw [mul_comm k, heq, mul_comm _ k] at hmod hdiv
  omega

theorem barAddr_inj (hfits : Fits) (h : Names raw) (h' : Names raw')
    (heq : barAddr raw = barAddr raw') : raw = raw' := by
  have hnb : numBarriers ≤ 2 ^ nbBits := le_pow_clog (by norm_num) _
  rw [barAddr_eq hfits h, barAddr_eq hfits h'] at heq
  exact raw_inj (h.2.2.trans_le hnb) (h'.2.2.trans_le hnb) heq

theorem barDecodeId_inj (hfits : Fits) (h : Names raw) (h' : Names raw')
    (heq : barDecodeId raw numBarriers = barDecodeId raw' numBarriers) : raw = raw' := by
  rw [barDecodeId_eq hfits h, barDecodeId_eq hfits h'] at heq
  exact raw_inj h.2.2 h'.2.2 heq

end Ids

/-- The stored state and phase are those of the simulated barrier. -/
structure RowMatch (row : BarRow) (phase : Bool) (b : WarpBarrier) : Prop where
  mask : row.mask = b.waitMask
  count : row.count = b.count
  events : row.events = b.events
  phase : phase = decide (b.phase % 2 = 1)
  room : b.events < 2 ^ eventWidth

/-- The operands fit the fields of the request, and the events the counter of the barrier. -/
def OpFits (b : WarpBarrier) : BarOp → Prop
  | .sync count | .arrive count => 0 < count ∧ count ≤ 2 ^ cntWidth ∧ count < 2 ^ 32
  | .wait phase => phase < 2
  | .expectTx count =>
    count ≤ 2 ^ barSizeW ∧ b.events + count < 2 ^ eventWidth ∧ b.events + count < 2 ^ 32
  | .release => 0 < b.events

/-- The two units decide alike: no arrival after the last one, no attachment of nothing, and a
phase that the simulator can compare with one bit. -/
def OpAgrees (b : WarpBarrier) : BarOp → Prop
  | .sync count | .arrive count => b.count < count
  | .wait phase => b.phase < 2 ∨ b.phase % 2 ≠ phase
  | .expectTx count => 0 < count
  | .release => True

instance (b : WarpBarrier) : ∀ op, Decidable (OpFits b op)
  | .sync _ | .arrive _ | .expectTx _ => inferInstanceAs (Decidable (_ ∧ _ ∧ _))
  | .wait _ | .release => inferInstanceAs (Decidable (_ < _))

instance (b : WarpBarrier) : ∀ op, Decidable (OpAgrees b op)
  | .sync _ | .arrive _ | .expectTx _ => inferInstanceAs (Decidable (_ < _))
  | .wait _ => inferInstanceAs (Decidable (_ ∨ _))
  | .release => .isTrue trivial

/-- What a request leaves and unlocks is what the operation does in the simulator. -/
def Served (b : WarpBarrier) (wid : ℕ) (op : BarOp) (r : BarRow × Bool × Option WarpMask) :
    Prop :=
  RowMatch r.1 r.2.1 (b.next wid op) ∧ r.2.2.getD ∅ = unlocked (b.result wid op) wid

namespace RowMatch
variable {row : BarRow} {phase : Bool} {b : WarpBarrier} {wid : ℕ}

section
variable (h : RowMatch row phase b)
include h

theorem toggled : (!phase) = decide (add32 b.phase 1 % 2 = 1) := by
  have hmod : add32 b.phase 1 % 2 = (b.phase + 1) % 2 := by
    unfold add32
    omega
  rw [h.phase, hmod, ← decide_not]
  exact decide_eq_decide.mpr (by omega)

theorem served {op : BarOp} {r : BarRow × Bool × Option WarpMask}
    (hroom : b.nextEvents op < 2 ^ eventWidth)
    (hr : r = if b.ends op then (⟨∅, b.nextCount op, b.nextEvents op⟩, !phase,
      some (b.parked wid op))
      else (⟨b.parked wid op, b.nextCount op, b.nextEvents op⟩, phase,
        if b.releases op then some {wid} else none)) : Served b wid op r := by
  rw [hr]
  cases hends : b.ends op with
  | false =>
    refine ⟨⟨?_, rfl, rfl, ?_, hroom⟩, ?_⟩
    · simp [WarpBarrier.next, hends]
    · simp [WarpBarrier.next, hends, h.phase]
    · cases hreleases : b.releases op <;>
        simp [unlocked, WarpBarrier.result, BarResult.resumed, hends, hreleases]
  | true =>
    have hreleases : b.releases op = false := by cases op <;> first | rfl | cases hends
    refine ⟨⟨?_, rfl, rfl, ?_, hroom⟩, ?_⟩
    · simp [WarpBarrier.next, hends]
    · simp [WarpBarrier.next, hends, h.toggled]
    · simp [unlocked, WarpBarrier.result, BarResult.resumed, hends, hreleases]

theorem arrive {count : ℕ} (isSync : Bool) {q : BarReq}
    (hfits : OpFits b (.arrive count)) (hagrees : b.count < count)
    (hq : q.wid = wid ∧ q.isEvent = false ∧ q.isArrive = true ∧ q.isSync = isSync ∧
      q.sizeM1 = count - 1) :
    Served b wid (if isSync then .sync count else .arrive count) (q.serve row phase) := by
  obtain ⟨hpos, hcnt, hword⟩ := hfits
  obtain ⟨hwid, hevent, harrive, hsync, hsize⟩ := hq
  have hnext : add32 b.count 1 = b.count + 1 := add32_of_lt (by omega)
  have hm1 : (count - 1) % 2 ^ cntWidth = count - 1 := mod_eq_of_lt (by omega)
  have hlast : b.count = count - 1 ↔ b.count + 1 = count := by omega
  have hcount : (b.count + 1) % count = if b.count + 1 = count then 0
      else (b.count + 1) % 2 ^ cntWidth := by
    split_ifs with hlast
    · rw [hlast, mod_self]
    · rw [mod_eq_of_lt (by omega), mod_eq_of_lt (by omega)]
  refine h.served (by cases isSync <;> exact h.room) ?_
  simp only [BarReq.serve, hevent, harrive, hsync, hsize, hwid, h.mask, h.count, h.events,
    hm1, hlast]
  cases isSync
  all_goals
    simp only [Bool.false_eq_true, if_true, if_false, WarpBarrier.ends, WarpBarrier.parked,
      WarpBarrier.parks,
      WarpBarrier.nextCount, WarpBarrier.nextEvents, WarpBarrier.releases, hnext, hcount]
    by_cases hlast : b.count + 1 = count <;> by_cases hdone : b.events = 0 <;> simp [hlast, hdone]

theorem wait {value : ℕ} {q : BarReq} (hbit : value < 2)
    (hagrees : b.phase < 2 ∨ b.phase % 2 ≠ value)
    (hq : q.wid = wid ∧ q.isEvent = false ∧ q.isArrive = false ∧
      q.phase = decide (value = 1)) : Served b wid (.wait value) (q.serve row phase) := by
  obtain ⟨hwid, hevent, harrive, hphase⟩ := hq
  have hsame : q.phase = phase ↔ b.phase = value := by
    rw [hphase, h.phase, decide_eq_decide]
    omega
  refine h.served h.room ?_
  obtain ⟨mask, count, events⟩ := row
  obtain ⟨rfl, rfl, rfl⟩ : mask = b.waitMask ∧ count = b.count ∧ events = b.events :=
    ⟨h.mask, h.count, h.events⟩
  by_cases hwaits : b.phase = value <;>
    simp [BarReq.serve, hevent, harrive, hwid, hsame, hwaits, WarpBarrier.ends, WarpBarrier.parked,
      WarpBarrier.parks, WarpBarrier.nextCount, WarpBarrier.nextEvents, WarpBarrier.releases]

theorem expectTx {count : ℕ} {q : BarReq} (hfits : OpFits b (.expectTx count))
    (hagrees : 0 < count) (hq : q.isEvent = true ∧ q.phase = true ∧ q.sizeM1 = count - 1) :
    Served b wid (.expectTx count) (q.serve row phase) := by
  obtain ⟨-, hroom, hword⟩ := hfits
  obtain ⟨hevent, hphase, hsize⟩ := hq
  have hevents : b.nextEvents (.expectTx count) = b.events + count := add32_of_lt hword
  have hsum : (row.events + (count - 1) + 1) % 2 ^ eventWidth = b.events + count := by
    rw [h.events, show b.events + (count - 1) + 1 = b.events + count by omega, mod_eq_of_lt hroom]
  refine h.served (hevents ▸ hroom) ?_
  simp [BarReq.serve, hevent, hphase, hsize, hsum, hevents, h.mask, h.count, WarpBarrier.ends,
    WarpBarrier.parked, WarpBarrier.parks, WarpBarrier.nextCount, WarpBarrier.releases]

theorem release {q : BarReq} (hpos : 0 < b.events)
    (hq : q.isEvent = true ∧ q.phase = false) : Served b wid .release (q.serve row phase) := by
  obtain ⟨hevent, hphase⟩ := hq
  have hroom := h.room
  have hevents : (b.events + (2 ^ eventWidth - 1)) % 2 ^ eventWidth = b.nextEvents .release := by
    rw [show b.events + (2 ^ eventWidth - 1) = b.events - 1 + 2 ^ eventWidth by omega,
      add_mod_right, mod_eq_of_lt (by omega)]
    rfl
  have hone : 1 % 2 ^ eventWidth = 1 := mod_eq_of_lt (by omega)
  refine h.served ?_ ?_
  · rw [WarpBarrier.nextEvents]
    omega
  · simp [BarReq.serve, hevent, hphase, hevents, hone, h.mask, h.count, h.events, WarpBarrier.ends,
      WarpBarrier.parked, WarpBarrier.parks, WarpBarrier.nextCount, WarpBarrier.releases]

end

end RowMatch

section Requests
variable {row : BarRow} {phase : Bool} {b : WarpBarrier}

omit [BarConfig] in
theorem minus_one {n w : ℕ} (hpos : 0 < n) (hle : n ≤ 2 ^ w) :
    (n % 2 ^ w + (2 ^ w - 1)) % 2 ^ w = n - 1 := by
  rcases hle.lt_or_eq with hlt | rfl
  · rw [mod_eq_of_lt hlt, show n + (2 ^ w - 1) = n - 1 + 2 ^ w by omega, add_mod_right,
      mod_eq_of_lt (by omega)]
  · rw [mod_self, zero_add, mod_eq_of_lt (by omega)]

theorem cntWidth_le : 2 ^ cntWidth ≤ 2 ^ barSizeW :=
  Nat.pow_le_pow_right (by norm_num) (le_max_left _ _)

omit [BarConfig] in
theorem flag_eq (n : ℕ) : n.testBit 31 = decide ((n >>> 31) % 2 = 1) := by
  rw [testBit_eq_decide_div_mod_eq, shiftRight_eq_div_pow]

theorem RowMatch.trace (hcfg : Fits) (h : RowMatch row phase b) {a : BarTrace}
    (hfits : OpFits b a.op) (hagrees : OpAgrees b a.op) :
    Served b a.wid a.op ((BarReq.ofTrace a).serve row phase) := by
  obtain ⟨instr, wid, arg1, arg2⟩ := a
  cases instr with
  | bar =>
    obtain ⟨hpos, hcnt, -⟩ := id hfits
    refine h.arrive true hfits hagrees ⟨rfl, rfl, ?_, rfl,
      minus_one hpos (hcnt.trans cntWidth_le)⟩
    simp [BarReq.ofTrace]
  | barWait =>
    refine h.wait hfits hagrees ⟨rfl, rfl, rfl, ?_⟩
    have hbit : arg2 < 2 := hfits
    have hval : arg2.testBit 0 = decide (arg2 = 1) := by
      rw [testBit_zero]
      exact decide_eq_decide.mpr (by omega)
    simp [BarReq.ofTrace, hval]
  | barArrive =>
    by_cases htx : (arg2 >>> 31) % 2 = 1
    · have hop : BarTrace.op ⟨.barArrive, wid, arg1, arg2⟩ = .expectTx (arg2 % 2 ^ 31) :=
        if_pos htx
      rw [hop] at hfits hagrees ⊢
      have hmod : arg2 % 2 ^ barSizeW = arg2 % 2 ^ 31 % 2 ^ barSizeW :=
        (mod_mod_of_dvd arg2 (pow_dvd_pow 2 hcfg.size)).symm
      refine h.expectTx hfits hagrees ⟨?_, ?_, ?_⟩
      · simp [BarReq.ofTrace, flag_eq, htx]
      · simp [BarReq.ofTrace, flag_eq, htx]
      · change (arg2 % 2 ^ barSizeW + (2 ^ barSizeW - 1)) % 2 ^ barSizeW = _
        rw [hmod]
        exact minus_one hagrees hfits.1
    · have hop : BarTrace.op ⟨.barArrive, wid, arg1, arg2⟩ = .arrive arg2 := if_neg htx
      rw [hop] at hfits hagrees ⊢
      obtain ⟨hpos, hcnt, -⟩ := id hfits
      refine h.arrive false hfits hagrees ⟨rfl, ?_, ?_, rfl,
        minus_one hpos (hcnt.trans cntWidth_le)⟩
      all_goals simp [BarReq.ofTrace, flag_eq, htx]

end Requests

def BarIn.raw (i : BarIn) : Option ℕ := (i.exec.map (·.arg1)).or i.txbar

def BarIn.action (i : BarIn) : Option BarAction :=
  match i.exec, i.txbar with
  | some a, _ => some (.bar a)
  | none, some raw => some (.release (barDecodeId raw numBarriers))
  | none, none => none

/-- Both units. `due` is set when the unlock register has the warps of an operation. -/
structure BarSystem where
  rtl : BarUnit
  simx : BarrierUnit
  due : Bool
  rtlLog : List WarpMask
  simxLog : List WarpMask

namespace BarUnit
variable (s : BarUnit) (i : BarIn)

def view (addr : ℕ) : BarRow × Bool :=
  match s.served with
  | some r => if s.waddr = addr then (r.1, r.2.1) else (s.row addr, s.storedPhase addr)
  | none => (s.row addr, s.storedPhase addr)

theorem readPhase_eq (addr : ℕ) : s.readPhase addr = (s.view addr).2 := by
  unfold readPhase view
  cases s.served with
  | none => rfl
  | some r => dsimp only; split_ifs <;> rfl

theorem stored_clock (addr : ℕ) :
    ((s.clock i).row addr, (s.clock i).storedPhase addr) = s.view addr := by
  unfold view
  cases hs : s.served with
  | none => simp [clock, hs, row, storedPhase]
  | some r =>
    by_cases haddr : s.waddr = addr
    · subst haddr
      simp [clock, hs, row, storedPhase]
    · simp [clock, hs, row, storedPhase, haddr, Ne.symm haddr]

theorem req_clock : (s.clock i).req = i.req := by
  unfold clock
  cases s.served <;> rfl

theorem waddr_clock : (s.clock i).waddr = i.readAddr := by
  unfold clock
  cases s.served <;> rfl

theorem unlock_clock : (s.clock i).unlock = (s.served).bind (·.2.2) := by
  unfold clock
  cases s.served <;> rfl

theorem phaseR_clock (h : s.req = none ∨ s.waddr = i.readAddr) :
    (s.clock i).phaseR = (s.view i.readAddr).2 := by
  unfold view clock
  cases hs : s.served with
  | none => rfl
  | some r =>
    have haddr : s.waddr = i.readAddr := by
      refine h.resolve_left fun hnone => ?_
      rw [served, hnone] at hs
      cases hs
    simp [haddr]

theorem served_clock (h : s.req = none ∨ s.waddr = i.readAddr) :
    (s.clock i).served = (i.req).map fun q =>
      q.serve (s.view i.readAddr).1 (s.view i.readAddr).2 := by
  rw [served, req_clock, waddr_clock, phaseR_clock s i h,
    ← congrArg Prod.fst (stored_clock s i _)]

theorem view_clock_idle (hreq : i.req = none) (addr : ℕ) :
    (s.clock i).view addr = s.view addr := by
  have hserved : (s.clock i).served = none := by
    rw [served, req_clock, hreq]
    rfl
  rw [view, hserved]
  exact stored_clock s i addr

theorem view_clock (h : s.req = none ∨ s.waddr = i.readAddr) {q : BarReq} (hreq : i.req = some q)
    (addr : ℕ) : (s.clock i).view addr = if i.readAddr = addr then
      ((q.serve (s.view addr).1 (s.view addr).2).1, (q.serve (s.view addr).1 (s.view addr).2).2.1)
      else s.view addr := by
  rw [view, served_clock s i h, hreq, waddr_clock]
  dsimp only [map_some]
  split_ifs with haddr
  · rw [haddr]
  · exact stored_clock s i addr

end BarUnit

namespace BarSystem
variable (activeWarps : WarpMask)

def step (s : BarSystem) (i : BarIn) : Option (BarSystem × Bool × Option ℕ) :=
  let rtl := s.rtl.clock i
  let rtlLog := s.rtlLog ++ if s.due then [s.rtl.unlock.getD ∅] else []
  let phase := s.rtl.readPhase i.readAddr
  match i.action with
  | none => some (⟨rtl, s.simx, s.rtl.req.isSome, rtlLog, s.simxLog⟩, phase, none)
  | some a => do
    let (u, r) ← s.simx.act activeWarps a
    some (⟨rtl, u, s.rtl.req.isSome, rtlLog, s.simxLog ++ [unlocked r a.wid]⟩, phase, r.dst)

def Lawful (s : BarSystem) (i : BarIn) : Prop :=
  (∀ raw ∈ i.raw, Names raw) ∧ (∀ a ∈ i.exec, a.wid < numWarps) ∧
  ∀ a ∈ i.action, OpFits (s.simx.barriers (a.barId)) a.op

def Agreeable (s : BarSystem) (i : BarIn) : Prop :=
  ∀ a ∈ i.action, OpAgrees (s.simx.barriers (a.barId)) a.op ∧
    (s.rtl.req = none ∨ s.rtl.waddr = i.readAddr)

instance (s : BarSystem) (i : BarIn) : Decidable (s.Lawful i) :=
  inferInstanceAs (Decidable (_ ∧ _ ∧ _))

instance (s : BarSystem) (i : BarIn) : Decidable (s.Agreeable i) :=
  inferInstanceAs (Decidable (∀ a ∈ _, _ ∧ _))

structure Inv (s : BarSystem) : Prop where
  rows : ∀ raw, Names raw → RowMatch (s.rtl.view (barAddr raw)).1
    (s.rtl.view (barAddr raw)).2 (s.simx.barriers (barDecodeId raw numBarriers))
  log : s.simxLog = s.rtlLog ++ (if s.due then [s.rtl.unlock.getD ∅] else []) ++
    ((s.rtl.served).map (·.2.2.getD ∅)).toList

variable {activeWarps} {s : BarSystem} {i : BarIn}

theorem request_cases (hcfg : Fits) (i : BarIn) : (i.action = none ∧ i.req = none) ∨
    ∃ raw q a, i.raw = some raw ∧ i.req = some q ∧ i.action = some a ∧
      i.readAddr = barAddr raw ∧ a.barId = barDecodeId raw numBarriers ∧
      ∀ row phase b, RowMatch row phase b → OpFits b a.op → OpAgrees b a.op →
        Served b a.wid a.op (q.serve row phase) := by
  obtain ⟨exec, txbar, addr⟩ := i
  cases exec with
  | some a =>
    exact .inr ⟨a.arg1, .ofTrace a, .bar a, rfl, rfl, rfl, rfl, rfl,
      fun row phase b h => h.trace hcfg⟩
  | none =>
    cases txbar with
    | some raw =>
      refine .inr ⟨raw, .release, .release (barDecodeId raw numBarriers), rfl, rfl, rfl, rfl,
        rfl, ?_⟩
      exact fun row phase b h hfits _ => h.release hfits ⟨rfl, rfl⟩
    | none => exact .inl ⟨rfl, rfl⟩

theorem allows_of_fits {b : WarpBarrier} {op : BarOp} (h : OpFits b op) : b.allows op = true := by
  cases op with
  | sync count | arrive count => exact decide_eq_true h.1.ne'
  | release => exact decide_eq_true (ne_of_gt h)
  | _ => rfl

theorem step_some {a : BarAction} {u : BarrierUnit} {r : BarResult} (haction : i.action = some a)
    (hact : s.simx.act activeWarps a = some (u, r)) :
    s.step activeWarps i = some (
      ⟨s.rtl.clock i, u, s.rtl.req.isSome,
        s.rtlLog ++ if s.due then [s.rtl.unlock.getD ∅] else [],
        s.simxLog ++ [unlocked r a.wid]⟩, s.rtl.readPhase i.readAddr, r.dst) := by
  simp [step, haction, hact]

theorem dst_eq {row : BarRow} {phase : Bool} {b : WarpBarrier} (h : RowMatch row phase b)
    {wid : ℕ} {op : BarOp} {v : ℕ} (hv : v ∈ (b.result wid op).dst) : v = phase.toNat := by
  have hval : v = b.phase % 2 := by
    cases op with
    | arrive count | expectTx count => exact (Option.some.inj hv).symm
    | _ => cases hv
  rw [hval, h.phase]
  rcases mod_two_eq_zero_or_one b.phase with hbit | hbit <;> simp [hbit]

theorem Inv.pending (h : s.Inv) :
    s.simxLog = s.rtlLog ++ (if s.due then [s.rtl.unlock.getD ∅] else []) ++
      (if s.rtl.req.isSome then [(s.rtl.clock i).unlock.getD ∅] else []) := by
  rw [h.log, BarUnit.unlock_clock, BarUnit.served]
  cases s.rtl.req <;> rfl

theorem Inv.idle (h : s.Inv) (hreq : i.req = none) (haction : i.action = none)
    (activeWarps : WarpMask) :
    ∃ s' phase, s.step activeWarps i = some (s', phase, none) ∧ s'.Inv := by
  refine ⟨_, _, by rw [step, haction], fun raw hraw => ?_, ?_⟩
  · rw [BarUnit.view_clock_idle s.rtl i hreq]
    exact h.rows raw hraw
  · have hserved : (s.rtl.clock i).served = none := by
      rw [BarUnit.served, BarUnit.req_clock, hreq]
      rfl
    simpa [hserved, toList_none] using h.pending

theorem Inv.serves (hcfg : Fits) (h : s.Inv) (hlawful : s.Lawful i) (hagree : s.Agreeable i)
    {raw : ℕ} {q : BarReq} {a : BarAction} (hraw : i.raw = some raw) (hreq : i.req = some q)
    (haction : i.action = some a) (hread : i.readAddr = barAddr raw)
    (hid : a.barId = barDecodeId raw numBarriers)
    (hserve : ∀ row phase b, RowMatch row phase b → OpFits b a.op → OpAgrees b a.op →
      Served b a.wid a.op (q.serve row phase)) (activeWarps : WarpMask) :
    ∃ s' phase dst, s.step activeWarps i = some (s', phase, dst) ∧ s'.Inv ∧
      ∀ v ∈ dst, v = phase.toNat := by
  have hnames : Names raw := hlawful.1 raw hraw
  have hfits := hlawful.2.2 a haction
  obtain ⟨hop, htiming⟩ := hagree a haction
  rw [hid] at hfits hop
  have hlt := index_lt hnames
  have hlocal : a.Local := by
    rw [BarAction.Local, hid, barDecodeId_eq hcfg hnames]
    exact ⟨hlt.trans_le hcfg.barriers, hlt⟩
  have hact : s.simx.act activeWarps a = _ :=
    BarrierUnit.act_eq hlocal (by rw [hid]; exact allows_of_fits hfits)
  have hrow := h.rows raw hnames
  obtain ⟨hnext, hunlock⟩ := hserve _ _ _ hrow hfits hop
  rw [hid] at hact
  refine ⟨_, _, _, step_some haction hact, ⟨fun raw' hraw' => ?_, ?_⟩, fun v hv => ?_⟩
  · rw [BarUnit.view_clock s.rtl i htiming hreq, hread]
    by_cases hsame : raw = raw'
    · subst hsame
      simpa using hnext
    · have haddr := mt (barAddr_inj hcfg hnames hraw') hsame
      have hindex := mt (barDecodeId_inj hcfg hraw' hnames) (Ne.symm hsame)
      simpa [haddr, hindex] using h.rows raw' hraw'
  · have hserved := BarUnit.served_clock s.rtl i htiming
    rw [hreq, hread] at hserved
    simp only [hserved, map_some, toList_some, hunlock]
    rw [h.pending]
  · rw [BarUnit.readPhase_eq, hread]
    exact dst_eq hrow hv

theorem Inv.step (hcfg : Fits) (h : s.Inv) (hlawful : s.Lawful i) (hagree : s.Agreeable i) :
    ∃ s' o, s.step activeWarps i = some (s', o) ∧ s'.Inv ∧ ∀ v ∈ o.2, v = o.1.toNat := by
  rcases request_cases hcfg i with ⟨haction, hreq⟩ |
    ⟨raw, q, a, hraw, hreq, haction, hread, hid, hserve⟩
  · obtain ⟨s', phase, hstep, hs'⟩ := h.idle hreq haction activeWarps
    exact ⟨s', (phase, none), hstep, hs', nofun⟩
  · obtain ⟨s', phase, dst, hstep, hs', hdst⟩ :=
      h.serves hcfg hlawful hagree hraw hreq haction hread hid hserve activeWarps
    exact ⟨s', (phase, dst), hstep, hs', hdst⟩

def quiet : BarIn := ⟨none, none, 0⟩

theorem Inv.drain (h : s.Inv) :
    ∃ t outs, run (BarSystem.step activeWarps) s [quiet, quiet] = some (t, outs) ∧
    t.rtlLog = s.simxLog := by
  refine ⟨_, _, rfl, ?_⟩
  rw [h.pending (i := quiet)]

def reset (states : ℕ → BarRow) (phases : ℕ → Bool) (waddr : ℕ) : BarSystem :=
  ⟨.reset states phases waddr, .reset, false, [], []⟩

theorem inv_reset {states : ℕ → BarRow} {phases : ℕ → Bool} {waddr : ℕ} :
    (reset states phases waddr).Inv where
  rows := fun _ _ => ⟨rfl, rfl, rfl, rfl, Nat.two_pow_pos _⟩
  log := rfl

/-- The phase bit that a `BAR.ARRIVE` gets is the one of the simulator, and the hardware unlocks
for each operation the warps that the simulator does, two clocks later. -/
theorem barriers_agree (hcfg : Fits) {states : ℕ → BarRow} {phases : ℕ → Bool} {waddr : ℕ}
    {clocks : List BarIn}
    (hclocks : Along (BarSystem.step activeWarps) (fun s i => s.Lawful i ∧ s.Agreeable i)
      (reset states phases waddr) clocks) :
    ∃ s outs, run (BarSystem.step activeWarps) (reset states phases waddr) clocks =
      some (s, outs) ∧
      List.Forall₂ (fun _ o => ∀ v ∈ o.2, v = o.1.toNat) clocks outs ∧
      s.rtlLog <+: s.simxLog ∧
      ∃ t outs', run (BarSystem.step activeWarps) s [quiet, quiet] = some (t, outs') ∧
      t.rtlLog = s.simxLog := by
  obtain ⟨s, outs, hrun, hs, houts⟩ :=
    run_invariant (I := Inv) (P := fun _ o => ∀ v ∈ o.2, v = o.1.toNat)
    (fun s i h hC => h.step hcfg hC.1 hC.2) inv_reset hclocks
  refine ⟨s, outs, hrun, houts, ?_, hs.drain⟩
  rw [hs.log, List.append_assoc]
  exact List.prefix_append _ _

def fresh : BarSystem := reset (fun _ => ⟨∅, 0, 0⟩) (fun _ => false) 0

end BarSystem

end

namespace BarSystem

abbrev smallBar : BarConfig where
  numWarps := 4
  numBarriers := 8
  ngcWidth := 1
  maxBarEvents := 32

/-- Two warps meet at a barrier with a transaction, and one of them waits at another one. -/
theorem barriers_agree_small :
    letI := smallBar
    let clocks :=
  [⟨some ⟨.barArrive, 0, 0, 2 ^ 31 + 1⟩, none, 0⟩, ⟨some ⟨.bar, 1, 0, 2⟩, none, 0⟩,
      ⟨some ⟨.barArrive, 0, 0, 2⟩, some 0, 0⟩, ⟨none, some 0, 0⟩, quiet,
        ⟨some ⟨.barArrive, 2, 256, 2⟩, none, 0⟩,
          ⟨some ⟨.barWait, 2, 256, 0⟩, none, 0⟩]
    ∃ s outs, run (BarSystem.step {0, 1, 2}) fresh clocks = some (s, outs) ∧
      List.Forall₂ (fun _ o => ∀ v ∈ o.2, v = o.1.toNat) clocks outs ∧
      s.rtlLog <+: s.simxLog ∧
      ∃ t outs', run (BarSystem.step {0, 1, 2}) s [quiet, quiet] = some (t, outs') ∧
        t.rtlLog = s.simxLog :=
  @barriers_agree smallBar {0, 1, 2} (@Fits.mk smallBar (by decide) (by decide) (by decide +kernel))
  _ _ _ _ (by decide +kernel)

/-- Two rounds later the simulator lets a warp go that the hardware stops. And of two barriers that
are used in consecutive clocks the second one gets its phase from the first one: the hardware stops
a warp whose round is over. -/
theorem barriers_differ :
    letI := smallBar
    let late : List BarIn :=
      [⟨some ⟨.barArrive, 0, 0, 1⟩, none, 0⟩, ⟨some ⟨.barArrive, 0, 0, 1⟩, none, 0⟩,
        ⟨some ⟨.barWait, 0, 0, 0⟩, none, 0⟩, quiet, quiet]
    let close : List BarIn :=
      [⟨some ⟨.barArrive, 1, 0, 1⟩, none, 0⟩,
        ⟨some ⟨.barArrive, 0, 256, 1⟩, none, 0⟩, quiet,
        ⟨some ⟨.barWait, 0, 256, 0⟩, none, 0⟩, quiet, quiet]
    (Along (BarSystem.step {0, 1}) (fun s i => s.Lawful i) fresh late ∧
      (run (BarSystem.step {0, 1}) fresh late).map (fun r => (r.1.rtlLog, r.1.simxLog)) =
        some ([∅, ∅, ∅], [∅, ∅, {0}])) ∧
    Along (BarSystem.step {0, 1}) (fun s i => s.Lawful i) fresh close ∧
      (run (BarSystem.step {0, 1}) fresh close).map (fun r => (r.1.rtlLog, r.1.simxLog)) =
        some ([∅, ∅, ∅], [∅, ∅, {0}]) := by
  decide +kernel

end BarSystem

end VortexGpu.Rtl

import VortexGpu.CpUnitsRtl

/-!
# What a unit does for a command

`executes` says for every unit what the whole execution of a command is on its
pins. Each unit serves one command at a time: from the grant in its idle state on
it does these operations in order, and nothing else, and then pulses done.
-/

namespace VortexGpu.Rtl
open SharedUnit CpOpcode List Nat Function

def launchExecutes (_ : CpCmd) (ops : List BusOp) : Prop := ops = [.start, .busy, .drained]

namespace VxLaunch

def isIdle (s : VxLaunch) : Bool := s == .idle

def Busy (_ : CpCmd) (ops : List BusOp) : VxLaunch → Prop
  | .idle => False
  | .pulseStart => ops = []
  | .waitBusy => ops = [.start]
  | .waitDrain => ops = [.start, .busy]

theorem serves : Serves clock isIdle Busy launchExecutes where
  rests s i h := by
    cases s <;> first | exact ⟨rfl, rfl⟩ | cases h
  accepts s c i h := by
    cases s <;> first | exact ⟨rfl, rfl⟩ | cases h
  works s g i c ops h := by
    cases s with
    | idle => exact h.elim
    | pulseStart =>
      cases h
      exact .inl ⟨rfl, rfl⟩
    | waitBusy =>
      cases h
      cases hb : i.gpuBusy <;> simp [clock, hb, Busy]
    | waitDrain =>
      cases h
      cases hb : i.gpuBusy <;> simp [clock, hb, Busy, launchExecutes, isIdle]
  busy s c ops h := by
    cases s <;> first | exact h.elim | rfl

end VxLaunch

def flushOps (rsps : List ℕ) : List BusOp :=
  rsps.zipIdx.flatMap fun p => [.dcrReq false baseCacheFlush p.2, .dcrRsp p.1]

def dcrExecutes (c : CpCmd) (ops : List BusOp) : Prop :=
  match ofByte c.opcode with
  | some .cacheFlush => ∃ rsps : List ℕ, rsps.length = c.arg0 % 2 ^ 16 ∧ ops = flushOps rsps
  | some .dcrRead => ∃ rsp,
      ops = [.dcrReq false (c.arg0 % 2 ^ dcrAddrBits) (c.arg1 % 2 ^ dcrDataBits), .dcrRsp rsp]
  | _ => ops = [.dcrReq true (c.arg0 % 2 ^ dcrAddrBits) (c.arg1 % 2 ^ dcrDataBits)]

theorem flushOps_append (rsps : List ℕ) (rsp : ℕ) : flushOps (rsps ++ [rsp]) =
    flushOps rsps ++ [.dcrReq false baseCacheFlush rsps.length, .dcrRsp rsp] := by
  simp [flushOps, zipIdx_append]

namespace VxDcrProxy

def isIdle (s : VxDcrProxy) : Bool := s.state == .idle

structure Holds (c : CpCmd) (s : VxDcrProxy) : Prop where
  isRead : s.isRead = (ofByte c.opcode == some .dcrRead)
  isFlush : s.isFlush = (ofByte c.opcode == some .cacheFlush)
  addr : s.addr = c.arg0 % 2 ^ dcrAddrBits
  data : s.data = c.arg1 % 2 ^ dcrDataBits
  total : s.isFlush = true → s.flushTotal = c.arg0 % 2 ^ 16

def Before (ops : List BusOp) (s : VxDcrProxy) : Prop :=
  if s.isFlush then ∃ rsps : List ℕ, rsps.length = s.flushCid ∧ s.flushCid < s.flushTotal ∧
    ops = flushOps rsps
  else ops = []

def Busy (c : CpCmd) (ops : List BusOp) (s : VxDcrProxy) : Prop :=
  s.Holds c ∧ match s.state with
    | .idle => False
    | .req => s.Before ops
    | .waitRsp => (s.isRead || s.isFlush) = true ∧
      ∃ before, s.Before before ∧ ops = before ++ [s.request]
    | .done => dcrExecutes c ops

theorem holds_capture (s : VxDcrProxy) (c : CpCmd) : (s.capture c).Holds c := by
  by_cases hf : ofByte c.opcode = some .cacheFlush
  all_goals constructor <;> simp [capture, hf]

theorem busy_capture (s : VxDcrProxy) (c : CpCmd) : Busy c [] (s.capture c) := by
  refine ⟨holds_capture s c, ?_⟩
  by_cases hf : ofByte c.opcode = some .cacheFlush
  · by_cases hz : c.arg0 % 2 ^ 16 = 0
    · have hstate : (s.capture c).state = .done := by
        simp only [capture, hf, beq_self_eq_true, if_true, hz]
      rw [hstate]
      simp only [dcrExecutes, hf]
      exact ⟨[], hz.symm, rfl⟩
    · have hstate : (s.capture c).state = .req := by
        simp only [capture, hf, beq_self_eq_true, if_true, hz, if_false]
      rw [hstate]
      simp only [capture, Before, hf, beq_self_eq_true, if_true]
      exact ⟨[], rfl, pos_of_ne_zero hz, rfl⟩
  · simp [capture, Before, hf]

variable {s : VxDcrProxy} {c : CpCmd} {before : List BusOp}

theorem executes_rsp {rsp : ℕ} (hholds : s.Holds c)
    (hkind : (s.isRead || s.isFlush) = true) (hbefore : s.Before before)
    (hlast : s.isFlush = true → s.flushTotal ≤ s.flushCid + 1) :
    dcrExecutes c (before ++ [s.request] ++ [.dcrRsp rsp]) := by
  cases hf : s.isFlush with
  | true =>
    have hop := eq_of_beq (hholds.isFlush.symm.trans hf)
    simp only [Before, hf, if_true] at hbefore
    obtain ⟨rsps, hlen, hlt, rfl⟩ := hbefore
    have htotal := hholds.total hf
    have hle := hlast hf
    simp only [dcrExecutes, hop]
    refine ⟨rsps ++ [rsp], ?_, ?_⟩
    · rw [length_append, length_singleton]
      omega
    · simp [flushOps_append, request, hf, hlen]
  | false =>
    have hread : s.isRead = true := by simpa [hf] using hkind
    have hop := eq_of_beq (hholds.isRead.symm.trans hread)
    simp only [Before, hf, Bool.false_eq_true, if_false] at hbefore
    subst hbefore
    simp only [dcrExecutes, hop]
    exact ⟨rsp, by simp [request, hf, hread, hholds.addr, hholds.data]⟩

theorem executes_write (hholds : s.Holds c)
    (hkind : (s.isRead || s.isFlush) = false) (hbefore : s.Before before) :
    dcrExecutes c (before ++ [s.request]) := by
  obtain ⟨hread, hf⟩ := Bool.or_eq_false_iff.mp hkind
  simp only [Before, hf, Bool.false_eq_true, if_false] at hbefore
  subst hbefore
  have hnotRead := ne_of_beq_false (hholds.isRead.symm.trans hread)
  have hnotFlush := ne_of_beq_false (hholds.isFlush.symm.trans hf)
  simp only [dcrExecutes]
  simp [request, hf, hread, hholds.addr, hholds.data]

theorem cid_succ (hholds : s.Holds c)
    (hf : s.isFlush = true) (hbefore : s.Before before) :
    (s.flushCid + 1) % 2 ^ 16 = s.flushCid + 1 := by
  have hbound : s.flushTotal < 2 ^ 16 := by
    rw [hholds.total hf]
    exact mod_lt _ (by decide)
  simp only [Before, hf, if_true] at hbefore
  exact mod_eq_of_lt (by omega)

theorem serves : Serves clock isIdle Busy dcrExecutes where
  rests s i h := by simp [clock, eq_of_beq h, isIdle]
  accepts s c i h := by
    simp only [clock, eq_of_beq h]
    exact ⟨trivial, busy_capture s c⟩
  works s g i c ops h := by
    obtain ⟨hholds, h⟩ := h
    cases hstate : s.state with
    | idle => simp [hstate] at h
    | req =>
      rw [hstate] at h
      cases hkind : s.isRead || s.isFlush with
      | true =>
        have hc : s.clock g i = ({ s with state := .waitRsp }, [s.request], false) := by
          simp [clock, hstate, hkind]
        rw [hc]
        exact .inl ⟨rfl, { hholds with }, hkind, ops, h, rfl⟩
      | false =>
        have hc : s.clock g i = ({ s with state := .done }, [s.request], false) := by
          simp [clock, hstate, hkind]
        rw [hc]
        exact .inl ⟨rfl, { hholds with }, executes_write hholds hkind h⟩
    | waitRsp =>
      have hbusy := h
      rw [hstate] at h
      obtain ⟨hkind, before, hbefore, rfl⟩ := h
      cases hv : i.dcrRspValid with
      | false =>
        have hc : s.clock g i = (s, [], false) := by simp [clock, hstate, hv]
        rw [hc, append_nil]
        exact .inl ⟨rfl, hholds, hbusy⟩
      | true =>
        by_cases hmore : s.isFlush ∧ (s.flushCid + 1) % 2 ^ 16 < s.flushTotal
        · have hc : s.clock g i = ({ s with
              rspData := i.dcrRspData, flushCid := (s.flushCid + 1) % 2 ^ 16, state := .req },
              [.dcrRsp i.dcrRspData], false) := by
            simp only [clock, hstate, hv, if_true, if_pos hmore]
          rw [hc]
          obtain ⟨hf, hlt⟩ := hmore
          have hnext := cid_succ hholds hf hbefore
          refine .inl ⟨rfl, { hholds with }, ?_⟩
          simp only [Before, hf, if_true] at hbefore ⊢
          obtain ⟨rsps, hlen, _, rfl⟩ := hbefore
          refine ⟨rsps ++ [i.dcrRspData], ?_, hlt, ?_⟩
          · rw [hnext, length_append, hlen, length_singleton]
          · simp [flushOps_append, request, hf, hlen]
        · have hc : s.clock g i = ({ s with rspData := i.dcrRspData, state := .done },
              [.dcrRsp i.dcrRspData], false) := by
            simp only [clock, hstate, hv, if_true, if_neg hmore]
          rw [hc]
          refine .inl ⟨rfl, { hholds with }, executes_rsp hholds hkind hbefore fun hf => ?_⟩
          rw [cid_succ hholds hf hbefore] at hmore
          exact not_lt.mp fun hlt => hmore ⟨hf, hlt⟩
    | done =>
      rw [hstate] at h
      have hc : s.clock g i = ({ s with state := .idle }, [], true) := by simp [clock, hstate]
      rw [hc, append_nil]
      exact .inr ⟨rfl, h, rfl⟩
  busy s c ops h := beq_eq_false_iff_ne.mpr fun hstate => by simp [Busy, hstate] at h

end VxDcrProxy

def polls (addr : ℕ) (reads : List ℕ) : List BusOp :=
  reads.flatMap fun d => [.ar .event addr 1, .r d]

/-- A signal writes its value; a wait reads until the comparison holds for the first time. -/
def eventExecutes (c : CpCmd) (ops : List BusOp) : Prop :=
  if ofByte c.opcode = some .eventSignal then ops = [.aw .event c.arg0 1, .w c.arg1, .b]
  else ∃ reads d, (∀ x ∈ reads, waitMatch (c.arg2 % 4) x c.arg1 = false) ∧
    waitMatch (c.arg2 % 4) d c.arg1 = true ∧ ops = polls c.arg0 (reads ++ [d])

theorem polls_append (addr : ℕ) (reads : List ℕ) (d : ℕ) :
    polls addr (reads ++ [d]) = polls addr reads ++ [.ar .event addr 1] ++ [.r d] := by
  simp [polls]

namespace VxEventUnit

def isIdle (s : VxEventUnit) : Bool := s.state == .idle

structure Holds (c : CpCmd) (s : VxEventUnit) : Prop where
  addr : s.addr = c.arg0
  value : s.value = c.arg1
  waitOp : s.waitOp = c.arg2 % 4

def Polled (c : CpCmd) (ops : List BusOp) : Prop :=
  ofByte c.opcode ≠ some .eventSignal ∧
    ∃ reads, (∀ x ∈ reads, waitMatch (c.arg2 % 4) x c.arg1 = false) ∧
    ops = polls c.arg0 reads

def Busy (c : CpCmd) (ops : List BusOp) (s : VxEventUnit) : Prop :=
  s.Holds c ∧ match s.state with
    | .idle => False
    | .reqAw => ofByte c.opcode = some .eventSignal ∧ ops = []
    | .reqW => ofByte c.opcode = some .eventSignal ∧ ops = [.aw .event c.arg0 1]
    | .waitB => ofByte c.opcode = some .eventSignal ∧ ops = [.aw .event c.arg0 1, .w c.arg1]
    | .reqAr => Polled c ops
    | .waitR => ∃ before, Polled c before ∧ ops = before ++ [.ar .event c.arg0 1]
    | .done => eventExecutes c ops

theorem Polled.miss {c : CpCmd} {before : List BusOp} {d : ℕ} (h : Polled c before)
    (hd : waitMatch (c.arg2 % 4) d c.arg1 = false) :
    Polled c (before ++ [.ar .event c.arg0 1] ++ [.r d]) := by
  obtain ⟨hop, reads, hreads, rfl⟩ := h
  exact ⟨hop, reads ++ [d], forall_mem_append.mpr ⟨hreads, forall_mem_singleton.mpr hd⟩,
    (polls_append _ _ _).symm⟩

theorem Polled.hit {c : CpCmd} {before : List BusOp} {d : ℕ} (h : Polled c before)
    (hd : waitMatch (c.arg2 % 4) d c.arg1 = true) :
    eventExecutes c (before ++ [.ar .event c.arg0 1] ++ [.r d]) := by
  obtain ⟨hop, reads, hreads, rfl⟩ := h
  rw [eventExecutes, if_neg hop]
  exact ⟨reads, d, hreads, hd, (polls_append _ _ _).symm⟩

/-- The handshake that the unit waits for. -/
def handshake (s : VxEventUnit) (i : UnitIn) : Bool :=
  match s.state with
  | .idle | .done => true
  | .reqAw => (i.axi .event).awready
  | .reqW => (i.axi .event).wready
  | .waitB => (i.axi .event).bvalid
  | .reqAr => (i.axi .event).arready
  | .waitR => (i.axi .event).rvalid

theorem serves : Serves clock isIdle Busy eventExecutes where
  rests s i h := by simp [clock, eq_of_beq h, isIdle]
  accepts s c i h := by
    simp only [clock, eq_of_beq h]
    refine ⟨trivial, ⟨rfl, rfl, rfl⟩, ?_⟩
    by_cases hop : ofByte c.opcode = some .eventSignal
    · simp [hop]
    · simp only [hop, if_false]
      exact ⟨hop, [], by simp, rfl⟩
  works s g i c ops h := by
    have hbusy := h
    obtain ⟨hholds, h⟩ := h
    have ⟨haddr, hvalue, hwait⟩ := hholds
    cases hv : s.handshake i with
    | false =>
      have hc : s.clock g i = (s, [], false) := by
        cases hstate : s.state <;> simp only [handshake, hstate, reduceCtorEq] at hv <;>
          simp [clock, hstate, hv]
      rw [hc, append_nil]
      exact .inl ⟨rfl, hbusy⟩
    | true =>
      cases hstate : s.state <;> simp only [handshake, hstate] at hv h
      case reqAw =>
        have hc : s.clock g i = ({ s with state := .reqW }, [.aw .event c.arg0 1], false) := by
          simp [clock, hstate, hv, haddr]
        rw [hc, h.2]
        exact .inl ⟨rfl, { hholds with }, h.1, rfl⟩
      case reqW =>
        have hc : s.clock g i = ({ s with state := .waitB }, [.w c.arg1], false) := by
          simp [clock, hstate, hv, hvalue]
        rw [hc, h.2]
        exact .inl ⟨rfl, { hholds with }, h.1, rfl⟩
      case waitB =>
        have hc : s.clock g i = ({ s with state := .done }, [.b], false) := by
          simp [clock, hstate, hv]
        rw [hc, h.2]
        exact .inl ⟨rfl, { hholds with }, by simp [eventExecutes, h.1]⟩
      case reqAr =>
        have hc : s.clock g i = ({ s with state := .waitR }, [.ar .event c.arg0 1], false) := by
          simp [clock, hstate, hv, haddr]
        rw [hc]
        exact .inl ⟨rfl, { hholds with }, ops, h, rfl⟩
      case waitR =>
        obtain ⟨before, hpolled, rfl⟩ := h
        have hc : s.clock g i =
            ({ s with state := if waitMatch (c.arg2 % 4) ((i.axi .event).rdata % 2 ^ 64) c.arg1 then
            .done else .reqAr }, [.r ((i.axi .event).rdata % 2 ^ 64)], false) := by
          simp [clock, hstate, hv, hvalue, hwait]
        rw [hc]
        cases hm : waitMatch (c.arg2 % 4) ((i.axi .event).rdata % 2 ^ 64) c.arg1 with
        | false => exact .inl ⟨rfl, { hholds with }, hpolled.miss hm⟩
        | true => exact .inl ⟨rfl, { hholds with }, hpolled.hit hm⟩
      case done =>
        have hc : s.clock g i = ({ s with state := .idle }, [], true) := by simp [clock, hstate]
        rw [hc, append_nil]
        exact .inr ⟨rfl, h, rfl⟩
  busy s c ops h := beq_eq_false_iff_ne.mpr fun hstate => by simp [Busy, hstate] at h

end VxEventUnit

def chunkOps (op src dst : ℕ) (beats : List ℕ) : List BusOp :=
  [.ar (readPort op) src beats.length] ++ beats.map .r ++ [.aw (writePort op) dst beats.length] ++
    beats.map .w ++ [.b]

/-- The operations of the chunks moved so far, and what is left: destination, source and beats. -/
inductive Moved (op dst₀ src₀ rem₀ : ℕ) : ℕ → ℕ → ℕ → List BusOp → Prop where
  | start : Moved op dst₀ src₀ rem₀ dst₀ src₀ rem₀ []
  | chunk {dst src rem : ℕ} {ops : List BusOp} {beats : List ℕ}
      (h : Moved op dst₀ src₀ rem₀ dst src rem ops) (hrem : rem ≠ 0)
      (hlen : beats.length = nextChunk src dst rem) :
      Moved op dst₀ src₀ rem₀ ((dst + 64 * beats.length) % 2 ^ 64)
        ((src + 64 * beats.length) % 2 ^ 64) (rem - beats.length) (ops ++ chunkOps op src dst beats)

def dmaExecutes (c : CpCmd) (ops : List BusOp) : Prop :=
  ∃ dst src, Moved c.opcode c.arg0 c.arg1 ((c.arg2 + 63) % 2 ^ 64 / 64) dst src 0 ops

theorem nextChunk_bounds (src dst : ℕ) {rem : ℕ} (h : rem ≠ 0) :
    0 < nextChunk src dst rem ∧ nextChunk src dst rem ≤ 64 ∧
    nextChunk src dst rem ≤ rem := by
  simp only [nextChunk, beatsTo4k]
  omega

theorem Moved.rem_lt {op dst₀ src₀ rem₀ dst src rem : ℕ} {ops : List BusOp}
    (h : Moved op dst₀ src₀ rem₀ dst src rem ops) : rem ≤ rem₀ := by
  induction h with
  | start => exact le_rfl
  | chunk _ _ _ ih => exact (sub_le _ _).trans ih

namespace VxDma

def isIdle (s : VxDma) : Bool := s.state == .idle

def beats (s : VxDma) (n : ℕ) : List ℕ := (range n).map s.buf

def Before (c : CpCmd) (ops : List BusOp) (s : VxDma) : Prop :=
  s.op = c.opcode ∧
    Moved c.opcode c.arg0 c.arg1 ((c.arg2 + 63) % 2 ^ 64 / 64) s.dst s.src s.remBeats ops

def InChunk (s : VxDma) : Prop :=
  s.remBeats ≠ 0 ∧ s.chunkBeats = nextChunk s.src s.dst s.remBeats ∧ s.beatIdx < s.chunkBeats

/-- What the current chunk has done, given the operations before it. -/
def Busy (c : CpCmd) (ops : List BusOp) (s : VxDma) : Prop :=
  ∃ before, s.Before c before ∧ match s.state with
    | .idle => False
    | .setup => ops = before
    | .reqAr => s.InChunk ∧ ops = before
    | .read => s.InChunk ∧
        ops = before ++ [.ar (readPort s.op) s.src s.chunkBeats] ++ (s.beats s.beatIdx).map .r
    | .reqAw => s.InChunk ∧
        ops = before ++ [.ar (readPort s.op) s.src s.chunkBeats] ++ (s.beats s.chunkBeats).map .r
    | .write => s.InChunk ∧
        ops = before ++ [.ar (readPort s.op) s.src s.chunkBeats] ++ (s.beats s.chunkBeats).map .r ++
          [.aw (writePort s.op) s.dst s.chunkBeats] ++ (s.beats s.beatIdx).map .w
    | .waitB => s.InChunk ∧
        ops = before ++ [.ar (readPort s.op) s.src s.chunkBeats] ++ (s.beats s.chunkBeats).map .r ++
          [.aw (writePort s.op) s.dst s.chunkBeats] ++ (s.beats s.chunkBeats).map .w
    | .done => s.remBeats = 0 ∧ ops = before

theorem beats_succ (s : VxDma) (n : ℕ) : s.beats (n + 1) = s.beats n ++ [s.buf n] := by
  simp [beats, range_succ]

theorem length_beats (s : VxDma) (n : ℕ) : (s.beats n).length = n := by simp [beats]

theorem beats_update {s t : VxDma} {n data : ℕ} (h : t.buf = update s.buf n data) :
    t.beats (n + 1) = s.beats n ++ [data] := by
  rw [beats_succ, h, update_self, beats, h, beats]
  congr 1
  refine map_congr_left fun k hk => update_of_ne ?_ _ _
  exact (mem_range.mp hk).ne

variable {s : VxDma}

theorem InChunk.bounds (h : s.InChunk) :
    s.beatIdx < 64 ∧ s.chunkBeats ≤ 64 ∧ s.chunkBeats ≤ s.remBeats := by
  obtain ⟨hrem, hchunk, hlt⟩ := h
  have hbound := nextChunk_bounds s.src s.dst hrem
  omega

/-- A beat is the last of the chunk, or the counter goes up. -/
theorem InChunk.lastBeat (h : s.InChunk) : s.lastBeat = true ∧ s.beatIdx + 1 = s.chunkBeats ∨
    s.lastBeat = false ∧ s.beatIdx + 1 < s.chunkBeats ∧
    (s.beatIdx + 1) % 64 = s.beatIdx + 1 := by
  obtain ⟨hidx, hle, -⟩ := h.bounds
  have hlt := h.2.2
  have hmod : (s.chunkBeats + 2 ^ 7 - 1) % 2 ^ 7 = s.chunkBeats - 1 := by omega
  rw [VxDma.lastBeat, hmod, beq_iff_eq, beq_eq_false_iff_ne]
  omega

theorem InChunk.advance_eq (h : s.InChunk) (hlt : s.remBeats < 2 ^ 64) : s.advance = { s with
    src := (s.src + 64 * s.chunkBeats) % 2 ^ 64
    dst := (s.dst + 64 * s.chunkBeats) % 2 ^ 64
    remBeats := s.remBeats - s.chunkBeats
    state := .setup } := by
  have hle := h.bounds.2.2
  simp only [advance, mk.injEq, true_and, and_true]
  omega

theorem Before.chunk {c : CpCmd} {before : List BusOp} (h : s.Before c before) (hin : s.InChunk) :
    Before c (before ++ chunkOps s.op s.src s.dst (s.beats s.chunkBeats)) s.advance := by
  obtain ⟨hop, hmoved⟩ := h
  refine ⟨hop, ?_⟩
  have hle := hmoved.rem_lt
  have hlen : (s.beats s.chunkBeats).length = nextChunk s.src s.dst s.remBeats := by
    rw [length_beats, hin.2.1]
  have hnext := hmoved.chunk hin.1 hlen
  simp only [length_beats] at hnext
  rw [hin.advance_eq (by omega), hop]
  exact hnext

def handshake (s : VxDma) (i : UnitIn) : Bool :=
  match s.state with
  | .idle | .setup | .done => true
  | .reqAr => (i.axi (readPort s.op)).arready
  | .read => (i.axi (readPort s.op)).rvalid
  | .reqAw => (i.axi (writePort s.op)).awready
  | .write => (i.axi (writePort s.op)).wready
  | .waitB => (i.axi (writePort s.op)).bvalid

inductive Clocked (s : VxDma) (i : UnitIn) : VxDma × List BusOp × Bool → Prop
  | wait (hwait : s.handshake i = false) : Clocked s i (s, [], false)
  | stop (hstate : s.state = .setup) (hrem : s.remBeats = 0) :
    Clocked s i ({ s with state := .done }, [], false)
  | setup (hstate : s.state = .setup) (hrem : s.remBeats ≠ 0) : Clocked s i ({ s with
      chunkBeats := nextChunk s.src s.dst s.remBeats, beatIdx := 0, state := .reqAr }, [], false)
  | ar (hstate : s.state = .reqAr) : Clocked s i ({ s with beatIdx := 0, state := .read },
      [.ar (readPort s.op) s.src s.chunkBeats], false)
  | read (hstate : s.state = .read) (hmore : s.beatIdx + 1 < s.chunkBeats) : Clocked s i ({ s with
      buf := update s.buf s.beatIdx (i.axi (readPort s.op)).rdata
      beatIdx := s.beatIdx + 1 }, [.r (i.axi (readPort s.op)).rdata], false)
  | readLast (hstate : s.state = .read) (hlast : s.beatIdx + 1 = s.chunkBeats) :
    Clocked s i ({ s with
      buf := update s.buf s.beatIdx (i.axi (readPort s.op)).rdata
      beatIdx := 0, state := .reqAw }, [.r (i.axi (readPort s.op)).rdata], false)
  | aw (hstate : s.state = .reqAw) : Clocked s i ({ s with beatIdx := 0, state := .write },
      [.aw (writePort s.op) s.dst s.chunkBeats], false)
  | write (hstate : s.state = .write) (hmore : s.beatIdx + 1 < s.chunkBeats) :
      Clocked s i ({ s with beatIdx := s.beatIdx + 1 }, [.w (s.buf s.beatIdx)], false)
  | writeLast (hstate : s.state = .write) (hlast : s.beatIdx + 1 = s.chunkBeats) :
      Clocked s i ({ s with state := .waitB }, [.w (s.buf s.beatIdx)], false)
  | b (hstate : s.state = .waitB) : Clocked s i (s.advance, [.b], false)
  | done (hstate : s.state = .done) : Clocked s i ({ s with state := .idle }, [], true)

def Sound (s : VxDma) : Prop :=
  match s.state with
  | .idle => False
  | .setup | .done => True
  | _ => s.InChunk

theorem clocked (g : Option CpCmd) (i : UnitIn) (h : s.Sound) : Clocked s i (s.clock g i) := by
  cases hv : s.handshake i with
  | false =>
    have hstay : s.clock g i = (s, [], false) := by
      cases hstate : s.state <;> simp only [handshake, hstate, reduceCtorEq] at hv <;>
        simp [clock, hstate, hv]
    exact hstay ▸ .wait hv
  | true =>
    cases hstate : s.state <;> simp only [handshake, Sound, hstate] at hv h
    case setup =>
      by_cases hrem : s.remBeats = 0
      · simpa [clock, hstate, hrem] using Clocked.stop (i := i) hstate hrem
      · simpa [clock, hstate, hrem] using Clocked.setup (i := i) hstate hrem
    case reqAr => simpa [clock, hstate, hv] using Clocked.ar (i := i) hstate
    case read =>
      obtain ⟨hbeat, hlast⟩ | ⟨hbeat, hmore, hidx⟩ := h.lastBeat
      · simpa [clock, hstate, hv, hbeat] using Clocked.readLast (i := i) hstate hlast
      · simpa [clock, hstate, hv, hbeat, hidx] using Clocked.read (i := i) hstate hmore
    case reqAw => simpa [clock, hstate, hv] using Clocked.aw (i := i) hstate
    case write =>
      obtain ⟨hbeat, hlast⟩ | ⟨hbeat, hmore, hidx⟩ := h.lastBeat
      · simpa [clock, hstate, hv, hbeat] using Clocked.writeLast (i := i) hstate hlast
      · simpa [clock, hstate, hv, hbeat, hidx] using Clocked.write (i := i) hstate hmore
    case waitB => simpa [clock, hstate, hv] using Clocked.b (i := i) hstate
    case done => simpa [clock, hstate] using Clocked.done (i := i) hstate

theorem Busy.sound {c : CpCmd} {ops : List BusOp} (h : Busy c ops s) : s.Sound := by
  obtain ⟨before, _, h⟩ := h
  cases hstate : s.state <;> simp_all [Sound]

theorem serves : Serves clock isIdle Busy dmaExecutes where
  rests s i h := by simp [clock, eq_of_beq h, isIdle]
  accepts s c i h := by
    simp only [clock, eq_of_beq h]
    exact ⟨trivial, [], ⟨rfl, .start⟩, rfl⟩
  works s g i c ops h := by
    have hclock := clocked g i h.sound
    have hbusy := h
    obtain ⟨before, hbefore, h⟩ := h
    generalize s.clock g i = r at hclock ⊢
    cases hclock with
    | wait _ => exact .inl ⟨rfl, by simpa using hbusy⟩
    | stop hstate hrem =>
      rw [hstate] at h
      exact .inl ⟨rfl, before, hbefore, hrem, by simpa using h⟩
    | setup hstate hrem =>
      rw [hstate] at h
      exact .inl ⟨rfl, before, hbefore,
        ⟨hrem, rfl, (nextChunk_bounds s.src s.dst hrem).1⟩, by simpa using h⟩
    | ar hstate =>
      rw [hstate] at h
      obtain ⟨⟨hrem, hchunk, hlt⟩, rfl⟩ := h
      exact .inl ⟨rfl, ops, hbefore, ⟨hrem, hchunk, zero_lt_of_lt hlt⟩, by simp [beats]⟩
    | read hstate hmore =>
      rw [hstate] at h
      obtain ⟨⟨hrem, hchunk, _⟩, rfl⟩ := h
      refine .inl ⟨rfl, before, hbefore, ?_⟩
      simp only [hstate]
      refine ⟨⟨hrem, hchunk, hmore⟩, ?_⟩
      rw [beats_update rfl]
      simp
    | readLast hstate hlast =>
      rw [hstate] at h
      obtain ⟨⟨hrem, hchunk, hlt⟩, rfl⟩ := h
      refine .inl ⟨rfl, before, hbefore, ⟨hrem, hchunk, zero_lt_of_lt hlt⟩, ?_⟩
      rw [← hlast, beats_update rfl]
      simp
    | aw hstate =>
      rw [hstate] at h
      obtain ⟨⟨hrem, hchunk, hlt⟩, rfl⟩ := h
      exact .inl ⟨rfl, before, hbefore, ⟨hrem, hchunk, zero_lt_of_lt hlt⟩, by simp [beats]⟩
    | write hstate hmore =>
      rw [hstate] at h
      obtain ⟨⟨hrem, hchunk, _⟩, rfl⟩ := h
      refine .inl ⟨rfl, before, hbefore, ?_⟩
      simp only [hstate]
      refine ⟨⟨hrem, hchunk, hmore⟩, ?_⟩
      rw [beats_succ]
      simp [beats]
    | writeLast hstate hlast =>
      rw [hstate] at h
      obtain ⟨⟨hrem, hchunk, hlt⟩, rfl⟩ := h
      refine .inl ⟨rfl, before, hbefore, ⟨hrem, hchunk, hlt⟩, ?_⟩
      simp [beats, ← hlast, range_succ]
    | b hstate =>
      rw [hstate] at h
      obtain ⟨hin, rfl⟩ := h
      refine .inl ⟨rfl, _, hbefore.chunk hin, ?_⟩
      simp [advance, chunkOps, length_beats]
    | done hstate =>
      rw [hstate] at h
      obtain ⟨hrem, rfl⟩ := h
      obtain ⟨_, hmoved⟩ := hbefore
      rw [hrem] at hmoved
      exact .inr ⟨rfl, ⟨_, _, by simpa using hmoved⟩, rfl⟩
  busy s c ops h := beq_eq_false_iff_ne.mpr fun hstate => by simp [Busy, hstate] at h

end VxDma

end VortexGpu.Rtl

import VortexGpu.BlockMoves
import VortexGpu.CmdCopy
import VortexGpu.CpDmaChunks
import Mathlib.Algebra.BigOperators.Ring.List

/-!
# What a copy leaves in memory

The copy engine with the memories behind its ports, which read and write whole lines of 64 bytes.
`todoMem` is the memory that the rest of the command leads to from a state; a clock does not change
it, so the memory at the end does not depend on the timing. The engine is exact when the size is a
number of lines.
-/

namespace VortexGpu.Rtl
open ByteMem BlockMoves List Function

/-- The memories behind the ports. A port may drop the low bits of the address of a burst. -/
structure MemPorts where
  bank : Port → ℕ
  aligns : Bool

def MemPorts.start (p : MemPorts) (addr : ℕ) : ℕ := if p.aligns then addr / 64 * 64 else addr

def MemPorts.readBank (p : MemPorts) (op : ℕ) : ℕ := p.bank (readPort op)

def MemPorts.writeBank (p : MemPorts) (op : ℕ) : ℕ := p.bank (writePort op)

/-- The engine, the memories, and the addresses of the next beat of the bursts. -/
structure DmaWorld where
  dma : VxDma
  mem : ℕ → Mem
  rd : ℕ
  wr : ℕ

namespace DmaWorld
variable (p : MemPorts)

def pins (w : DmaWorld) (i : UnitIn) : UnitIn :=
  { i with axi := fun q => { i.axi q with rdata := readLE (w.mem (p.bank q)) w.rd 64 } }

def storeLine (mem : ℕ → Mem) (bank addr data : ℕ) : ℕ → Mem :=
  update mem bank (writeBytes (mem bank) addr (bytesLE 64 data))

def handle (w : DmaWorld) : BusOp → DmaWorld
  | .ar _ addr _ => { w with rd := p.start addr }
  | .r _ => { w with rd := w.rd + 64 }
  | .aw _ addr _ => { w with wr := p.start addr }
  | .w data => { w with mem := storeLine w.mem (p.writeBank w.dma.op) w.wr data, wr := w.wr + 64 }
  | _ => w

def clock (w : DmaWorld) (i : UnitIn) : DmaWorld × Bool :=
  let r := w.dma.clock none (w.pins p i)
  ({ r.2.1.foldl (handle p) w with dma := r.1 }, r.2.2)

def finish : DmaWorld → List UnitIn → Option DmaWorld
  | _, [] => none
  | w, i :: is => if (w.clock p i).2 then some (w.clock p i).1 else finish (w.clock p i).1 is

/-- The clocks with the handshake of the channel the engine works on. -/
def awaited (w : DmaWorld) (is : List UnitIn) : ℕ :=
  Runs.awaited (fun w i => (w.clock p i).1) (fun w i => w.dma.handshake i) w is

def moveChunks {α : Type} (op : ℕ) (cs : List Chunk) (mem : ℕ → ℕ → α) :
    ℕ → ℕ → α :=
  cs.foldl (fun m c =>
    move (p.readBank op) (p.writeBank op) (p.start c.src) (p.start c.dst) (64 * c.beats) m) mem

/-- The lines `k` to `k + n` of the buffer are written. -/
def storeLines (bank addr : ℕ) (buf : ℕ → ℕ) : ℕ → ℕ → (ℕ → Mem) → ℕ → Mem
  | _, 0, mem => mem
  | k, n + 1, mem => storeLines bank addr buf (k + 1) n (storeLine mem bank (addr + 64 * k) (buf k))

def moveChunk (w : DmaWorld) : ℕ → Mem :=
  move (p.readBank w.dma.op) (p.writeBank w.dma.op) (p.start w.dma.src) (p.start w.dma.dst)
    (64 * w.dma.chunkBeats) w.mem

def todoMem (w : DmaWorld) : ℕ → Mem :=
  match w.dma.state with
  | .setup => moveChunks p w.dma.op (chunksOf w.dma.src w.dma.dst w.dma.remBeats) w.mem
  | .reqAr | .read | .reqAw => moveChunks p w.dma.op w.dma.later (w.moveChunk p)
  | .write =>
    moveChunks p w.dma.op w.dma.later (storeLines (p.writeBank w.dma.op) (p.start w.dma.dst)
      w.dma.buf w.dma.beatIdx (w.dma.chunkBeats - w.dma.beatIdx) w.mem)
  | .waitB => moveChunks p w.dma.op w.dma.later w.mem
  | .idle | .done => w.mem

def Holds (w : DmaWorld) (n : ℕ) : Prop :=
  ∀ k < n, w.dma.buf k = readLE (w.mem (p.readBank w.dma.op)) (p.start w.dma.src + 64 * k) 64

def Agrees (w : DmaWorld) : Prop :=
  w.dma.Working ∧ match w.dma.state with
    | .read => w.rd = p.start w.dma.src + 64 * w.dma.beatIdx ∧ w.Holds p w.dma.beatIdx
    | .reqAw => w.Holds p w.dma.chunkBeats
    | .write => w.wr = p.start w.dma.dst + 64 * w.dma.beatIdx
    | _ => True

theorem storeLine_other {mem : ℕ → Mem} {bank addr data b x : ℕ}
    (h : ¬(b = bank ∧ addr ≤ x ∧ x < addr + 64)) :
    storeLine mem bank addr data b x = mem b x := by
  rw [storeLine]
  by_cases hb : b = bank
  · subst hb
    rw [update_self, writeBytes_of_not_mem]
    rw [length_bytesLE]
    by_contra hx
    exact h ⟨rfl, by omega, by omega⟩
  · rw [update_of_ne hb]

theorem storeLine_line {mem src : ℕ → Mem} {bank addr sb a k : ℕ} (h : k < 64) :
    storeLine mem bank addr (readLE (src sb) a 64) bank (addr + k) = src sb (a + k) := by
  rw [storeLine, update_self, writeBytes_of_lt (by rwa [length_bytesLE]), getD_bytesLE_readLE _ _ h]

theorem storeLines_eq_move {db sb addr a : ℕ} {buf : ℕ → ℕ} {src : ℕ → Mem} {n k : ℕ}
    (h : ∀ j, k ≤ j → j < k + n → buf j = readLE (src sb) (a + 64 * j) 64)
    (mem : ℕ → Mem) (b x : ℕ) : storeLines db addr buf k n mem b x =
      if b = db ∧ addr + 64 * k ≤ x ∧ x < addr + 64 * (k + n) then src sb (a + (x - addr))
      else mem b x := by
  induction n generalizing k mem with
  | zero => rw [storeLines, if_neg (by omega)]
  | succ n ih =>
    rw [storeLines, ih fun j hj hj' => h j (by omega) (by omega), h k le_rfl (by omega)]
    by_cases hlater : b = db ∧ addr + 64 * (k + 1) ≤ x ∧ x < addr + 64 * (k + 1 + n)
    · rw [if_pos hlater, if_pos (by omega)]
    rw [if_neg hlater]
    by_cases hline : b = db ∧ addr + 64 * k ≤ x ∧ x < addr + 64 * k + 64
    · obtain ⟨rfl, hlo, hhi⟩ := hline
      obtain ⟨j, rfl⟩ := Nat.exists_eq_add_of_le hlo
      rw [storeLine_line (by omega), if_pos (by omega)]
      congr 1
      omega
    · rw [storeLine_other hline, if_neg (by omega)]

theorem storeLines_of_holds {w : DmaWorld} (h : w.Holds p w.dma.chunkBeats) :
    storeLines (p.writeBank w.dma.op) (p.start w.dma.dst) w.dma.buf 0 w.dma.chunkBeats w.mem =
      w.moveChunk p := by
  funext b x
  have hlines : ∀ j, 0 ≤ j → j < 0 + w.dma.chunkBeats →
      w.dma.buf j = readLE (w.mem (p.readBank w.dma.op)) (p.start w.dma.src + 64 * j) 64 :=
    fun j _ hj => h j (by omega)
  rw [storeLines_eq_move hlines, moveChunk, move]
  simp

theorem Holds.beat {w : DmaWorld} (h : w.Holds p w.dma.beatIdx)
    (hrd : w.rd = p.start w.dma.src + 64 * w.dma.beatIdx) :
    ∀ k < w.dma.beatIdx + 1, update w.dma.buf w.dma.beatIdx
      (readLE (w.mem (p.readBank w.dma.op)) w.rd 64) k =
        readLE (w.mem (p.readBank w.dma.op)) (p.start w.dma.src + 64 * k) 64 := by
  intro k hk
  by_cases hlast : k = w.dma.beatIdx
  · rw [hlast, update_self, hrd]
  · rw [update_of_ne hlast]
    exact h k (by omega)

theorem clock_spec {w : DmaWorld} (h : w.Agrees p) (i : UnitIn) :
    ((w.clock p i).2 = true ∧ (w.clock p i).1.mem = w.todoMem p) ∨
      ((w.clock p i).2 = false ∧ (w.clock p i).1.Agrees p ∧ (w.clock p i).1.todoMem p =
        w.todoMem p) := by
  have hc := VxDma.clocked none (w.pins p i) h.1.1
  have hwork := VxDma.working_clock h.1 hc
  simp only [clock]
  generalize w.dma.clock none (w.pins p i) = r at hc hwork ⊢
  obtain ⟨hw, h⟩ := h
  cases hc with
  | wait _ => exact .inr ⟨rfl, ⟨hw, h⟩, rfl⟩
  | stop hstate hrem =>
    refine .inr ⟨rfl, ⟨hwork, trivial⟩, ?_⟩
    simp only [todoMem, hstate, hrem, chunksOf_zero]
    rfl
  | setup hstate hrem =>
    refine .inr ⟨rfl, ⟨hwork, trivial⟩, ?_⟩
    simp only [todoMem, hstate]
    rw [chunksOf_next hrem]
    rfl
  | ar hstate =>
    refine .inr ⟨rfl, ⟨hwork, by simp [handle], fun k hk => absurd hk (Nat.not_lt_zero k)⟩,
      ?_⟩
    simp only [todoMem, hstate]
    rfl
  | read hstate hmore =>
    rw [hstate] at h
    refine .inr ⟨rfl, ⟨hwork, ?_⟩, ?_⟩
    · simp only [hstate]
      exact ⟨by simp only [foldl_cons, foldl_nil, handle, h.1]; omega, h.2.beat p h.1⟩
    · simp only [todoMem, hstate]
      rfl
  | readLast hstate hlast =>
    rw [hstate] at h
    refine .inr ⟨rfl, ⟨hwork, ?_⟩, ?_⟩
    · intro k hk
      exact h.2.beat p h.1 k (hlast ▸ hk)
    · simp only [todoMem, hstate]
      rfl
  | aw hstate =>
    rw [hstate] at h
    refine .inr ⟨rfl, ⟨hwork, by simp [handle]⟩, ?_⟩
    simp only [todoMem, hstate]
    exact congrArg (moveChunks p w.dma.op w.dma.later) (storeLines_of_holds p h)
  | write hstate hmore =>
    rw [hstate] at h
    refine .inr ⟨rfl, ⟨hwork, ?_⟩, ?_⟩
    · simp only [hstate]
      simp only [foldl_cons, foldl_nil, handle, h]
      omega
    · obtain ⟨n, hn⟩ : ∃ n, w.dma.chunkBeats - w.dma.beatIdx = n + 1 :=
        ⟨w.dma.chunkBeats - w.dma.beatIdx - 1, by omega⟩
      have hn' : w.dma.chunkBeats - (w.dma.beatIdx + 1) = n := by omega
      simp only [todoMem, hstate, hn, hn', storeLines, foldl_cons, foldl_nil, handle, h]
      rfl
  | writeLast hstate hlast =>
    rw [hstate] at h
    refine .inr ⟨rfl, ⟨hwork, trivial⟩, ?_⟩
    have hn : w.dma.chunkBeats - w.dma.beatIdx = 0 + 1 := by omega
    simp only [todoMem, hstate, hn, storeLines, foldl_cons, foldl_nil, handle, h]
    rfl
  | b hstate =>
    have hin := hw.inChunk (by simp [hstate])
    refine .inr ⟨rfl, ⟨hwork, trivial⟩, ?_⟩
    rw [hin.advance_eq hw.2]
    simp only [todoMem, hstate, VxDma.later]
    rfl
  | done hstate => exact .inl ⟨rfl, by simp [todoMem, hstate]⟩

theorem finish_mem {w w' : DmaWorld} (h : w.Agrees p) {is : List UnitIn}
    (hfin : w.finish p is = some w') : w'.mem = w.todoMem p := by
  induction is generalizing w with
  | nil => cases hfin
  | cons i is ih =>
    rw [finish] at hfin
    rcases clock_spec p h i with ⟨hd, hmem⟩ | ⟨hd, hagrees, htodo⟩
    · rw [hd, if_pos rfl] at hfin
      rw [← Option.some.inj hfin]
      exact hmem
    · rw [hd, if_neg Bool.false_ne_true] at hfin
      exact (ih hagrees hfin).trans htodo

theorem handshake_pins (w : DmaWorld) (i : UnitIn) :
    w.dma.handshake (w.pins p i) = w.dma.handshake i := by
  cases hstate : w.dma.state <;> simp only [VxDma.handshake, hstate, pins]

theorem isSome_finish (w : DmaWorld) (is : List UnitIn) : (w.finish p is).isSome =
    Runs.stops (fun w i => (w.clock p i).1) (fun w i => (w.clock p i).2) w is := by
  induction is generalizing w with
  | nil => rfl
  | cons i is ih => cases hd : (w.clock p i).2 <;> simp [finish, Runs.stops, hd, ih]

theorem finish_of_awaited {w : DmaWorld} (h : w.Agrees p) {is : List UnitIn}
    (hcount : w.dma.rank ≤ w.awaited p is) : (w.finish p is).isSome := by
  rw [isSome_finish]
  refine Runs.stops_of_awaited (fun w => w.dma.rank) (I := Agrees p)
    (fun w hw => hw.1.rank_pos) (fun w i hw => ?_) h hcount
  have hrank := VxDma.rank_clock hw.1 (VxDma.clocked none (w.pins p i) hw.1.1)
  rw [handshake_pins] at hrank
  exact (clock_spec p hw i).imp (·.1) fun hnext => ⟨hnext.2.1, hrank⟩

end DmaWorld

theorem MemPorts.start_add (p : MemPorts) (addr n : ℕ) :
    p.start (addr + 64 * n) = p.start addr + 64 * n := by
  simp only [MemPorts.start]
  split
  · omega
  · rfl

theorem moveChunks_eq_moves {α : Type} (p : MemPorts) (op : ℕ) {src dst rem : ℕ}
    (hsrc : src + 64 * rem ≤ 2 ^ 64 + 63) (hdst : dst + 64 * rem ≤ 2 ^ 64 + 63)
    (mem : ℕ → ℕ → α) : DmaWorld.moveChunks p op (chunksOf src dst rem) mem =
      moves (p.readBank op) (p.writeBank op) (p.start src) (p.start dst)
        ((chunksOf src dst rem).map (fun c => 64 * c.beats)) mem := by
  induction src, dst, rem using chunks_induction generalizing mem with
  | zero => rfl
  | chunk src dst rem hrem ih =>
    have hle := (nextChunk_bounds src dst hrem).2.2
    generalize hn : nextChunk src dst rem = n at ih hle
    rw [chunksOf_next hrem, hn]
    by_cases hlast : rem - n = 0
    · rw [hlast, chunksOf_zero]
      rfl
    · have hsrc' : (src + 64 * n) % 2 ^ 64 = src + 64 * n := Nat.mod_eq_of_lt (by omega)
      have hdst' : (dst + 64 * n) % 2 ^ 64 = dst + 64 * n := Nat.mod_eq_of_lt (by omega)
      rw [hsrc', hdst'] at ih ⊢
      rw [map_cons, moves, ← p.start_add, ← p.start_add]
      exact ih (by omega) (by omega) _

theorem copied_eq_move {src dst total : ℕ} (mem : ℕ → Mem) (b : ℕ)
    (hdst : dst + total ≤ 2 ^ 64)
    (hsrc : src + total ≤ 2 ^ 64) (hapart : Apart b b src dst total) :
    (Cp.copied (mem b) dst src total).1 = move b b src dst total mem b := by
  funext x
  by_cases hx : dst ≤ x ∧ x < dst + total
  · obtain ⟨k, rfl⟩ := Nat.exists_eq_add_of_le hx.1
    have hforward : dst ≤ src ∨ src + total ≤ dst := by
      rcases hapart with h | h | h
      · exact absurd rfl h
      · exact Or.inr h
      · exact Or.inl (by omega)
    rw [move_inside hx.1 hx.2, Cp.copied_exact hdst hsrc (Or.inr hforward) (by omega),
      Nat.add_sub_cancel_left]
  · rw [move_outside fun h => hx h.2, Cp.copied_frame hdst hsrc (by omega)]

def CpCmd.functional (c : CpCmd) : Cp.Cmd :=
  ⟨c.opcode, c.flags, c.reserved, c.arg0, c.arg1, c.arg2⟩

/-- Whatever the timing, the command ends when the handshakes it waits for keep coming, and at its
end the bytes of the command have been copied and no other byte has changed. With one memory this is
what the functional model does without address translation. -/
def CopiesExactly (p : MemPorts) (c : CpCmd) : Prop :=
  letI := Cp.noVm
  ∀ (s : VxDma) (i : UnitIn) (mem : ℕ → Mem), s.state = .idle →
    (∃ n, ∀ is, n ≤ DmaWorld.awaited p ⟨(s.clock (some c) i).1, mem, 0, 0⟩ is →
      (DmaWorld.finish p ⟨(s.clock (some c) i).1, mem, 0, 0⟩ is).isSome) ∧
    ∀ is w, DmaWorld.finish p ⟨(s.clock (some c) i).1, mem, 0, 0⟩ is = some w →
      w.mem = move (p.readBank c.opcode) (p.writeBank c.opcode) c.arg1 c.arg0 c.arg2 mem ∧
      (p.readBank c.opcode = p.writeBank c.opcode → ∀ cp cp' : Cp.CommandProcessor,
        cp.dram = mem (p.writeBank c.opcode) → cp.execMem c.functional = some cp' →
          cp'.dram = w.mem (p.writeBank c.opcode))

def beatsOf (c : CpCmd) : ℕ := (c.arg2 + 63) % 2 ^ 64 / 64

section Exact
variable {p : MemPorts} {c : CpCmd} {s : VxDma} (i : UnitIn) (mem : ℕ → Mem)

theorem agrees_grant (hidle : s.state = .idle) :
    DmaWorld.Agrees p ⟨(s.clock (some c) i).1, mem, 0, 0⟩ :=
  ⟨VxDma.working_grant c i hidle, by simp [VxDma.clock, hidle]⟩

def chunkMoves (p : MemPorts) (c : CpCmd) (mem : ℕ → Mem) : ℕ → Mem :=
  moves (p.readBank c.opcode) (p.writeBank c.opcode) (p.start c.arg1) (p.start c.arg0)
    ((chunksOf c.arg1 c.arg0 (beatsOf c)).map (fun k => 64 * k.beats)) mem

section
variable (hdst : c.arg0 + c.arg2 ≤ 2 ^ 64) (hsrc : c.arg1 + c.arg2 ≤ 2 ^ 64)
include hdst hsrc

theorem todoMem_grant (hidle : s.state = .idle) :
    DmaWorld.todoMem p ⟨(s.clock (some c) i).1, mem, 0, 0⟩ = chunkMoves p c mem := by
  simp only [VxDma.clock, hidle, DmaWorld.todoMem]
  exact moveChunks_eq_moves p c.opcode (by omega) (by omega) mem

theorem copiesExactly_iff_moves
    (hapart : Apart (p.readBank c.opcode) (p.writeBank c.opcode) c.arg1 c.arg0 c.arg2) :
    CopiesExactly p c ↔ ∀ mem, chunkMoves p c mem =
      move (p.readBank c.opcode) (p.writeBank c.opcode) c.arg1 c.arg0 c.arg2 mem := by
  constructor
  · intro h mem
    obtain ⟨⟨n, hend⟩, hmem⟩ := h VxDma.reset prompt mem rfl
    obtain ⟨w, hw⟩ := Option.isSome_iff_exists.mp (hend (replicate n prompt)
      (Runs.awaited_replicate (fun w : DmaWorld => handshake_prompt w.dma) n).ge)
    rw [← (hmem _ w hw).1, DmaWorld.finish_mem p (agrees_grant prompt mem rfl) hw]
    exact (todoMem_grant prompt mem hdst hsrc rfl).symm
  · intro h s i mem hidle
    have hagrees : DmaWorld.Agrees p ⟨(s.clock (some c) i).1, mem, 0, 0⟩ :=
      agrees_grant i mem hidle
    refine ⟨⟨_, fun is hcount => DmaWorld.finish_of_awaited p hagrees hcount⟩,
      fun is w hw => ?_⟩
    have hmem : w.mem =
        move (p.readBank c.opcode) (p.writeBank c.opcode) c.arg1 c.arg0 c.arg2 mem := by
      rw [DmaWorld.finish_mem p hagrees hw, todoMem_grant i mem hdst hsrc hidle, h mem]
    refine ⟨hmem, fun hbank cp cp' hdram hexec => ?_⟩
    rw [hbank] at hmem hapart
    rw [hmem]
    rcases @Cp.execMem_spec Cp.noVm _ _ _ hexec with ⟨hzero, rfl⟩ |
      ⟨_, dst, src, hd, hs, rfl⟩
    · have hzero : c.arg2 = 0 := hzero
      rw [hzero, move_zero, hdram]
    have hd : dst = c.arg0 := by
      simpa [Cp.memDst, CpCmd.functional, eq_comm] using hd
    have hs : src = c.arg1 := by
      simpa [Cp.memSrc, CpCmd.functional, eq_comm] using hs
    subst hd hs
    rw [← copied_eq_move mem _ hdst hsrc hapart, ← hdram]
    rfl

end

/-- A copy is exact when its size is a number of lines and, behind ports that drop the low bits of
an address, its addresses are those of lines. -/
theorem copies_exactly_iff (hsize : c.arg2 < 2 ^ 64) (hdst : c.arg0 + c.arg2 ≤ 2 ^ 64)
    (hsrc : c.arg1 + c.arg2 ≤ 2 ^ 64)
    (hapart : Apart (p.readBank c.opcode) (p.writeBank c.opcode) c.arg1 c.arg0 c.arg2) :
    CopiesExactly p c ↔
      c.arg2 = 0 ∨ (64 ∣ c.arg2 ∧ (p.aligns = true → 64 ∣ c.arg0 ∧ 64 ∣ c.arg1)) := by
  rw [copiesExactly_iff_moves hdst hsrc hapart]
  by_cases hzero : c.arg2 = 0
  · have hbeats : beatsOf c = 0 := by simp [beatsOf, hzero]
    simp only [chunkMoves, hzero, hbeats, chunksOf_zero, move_zero, true_or, iff_true]
    exact fun mem => rfl
  have hpos : ∀ n ∈ (chunksOf c.arg1 c.arg0 (beatsOf c)).map (fun k => 64 * k.beats),
      0 < n := by
    intro n hn
    obtain ⟨k, hk, rfl⟩ := mem_map.mp hn
    have := chunksOf_pos _ hk
    omega
  have : Nontrivial UInt8 := ⟨0, 1, by decide⟩
  simp only [chunkMoves]
  rw [moves_exact_iff hpos (pos_of_ne_zero hzero) hapart, sum_map_mul_left, chunksOf_sum]
  have hlines : 64 * beatsOf c = c.arg2 ↔ 64 ∣ c.arg2 := by
    rw [beatsOf]
    omega
  have hstart : ∀ addr, p.start addr = addr ↔ (p.aligns = true → 64 ∣ addr) := by
    intro addr
    cases ha : p.aligns
    · simp [MemPorts.start, ha]
    · simp only [MemPorts.start, ha, if_true, forall_const]
      omega
  rw [hlines, hstart, hstart]
  constructor
  · rintro ⟨hs, hd, hl⟩
    exact .inr ⟨hl, fun ha => ⟨hd ha, hs ha⟩⟩
  · rintro (h | ⟨hl, h⟩)
    · exact absurd h hzero
    · exact ⟨fun ha => (h ha).2, fun ha => (h ha).1, hl⟩

end Exact

theorem copies_exactly_two_lines :
    CopiesExactly ⟨fun _ => 0, true⟩ ⟨3, 0, 0, 4096, 64, 128, 0⟩ :=
  (copies_exactly_iff (by decide) (by decide) (by decide) (.inr (.inl (by decide)))).mpr
    (.inr ⟨by decide, fun _ => ⟨by decide, by decide⟩⟩)

def onesInFirstLine : ℕ → Mem := fun _ x => if x < 64 then 1 else 0

/-- A copy of one byte overwrites the byte after it. -/
theorem copy_of_byte_overruns : (DmaWorld.finish ⟨fun _ => 0, false⟩
      ⟨(VxDma.reset.clock (some ⟨3, 0, 0, 64, 0, 1, 0⟩) prompt).1, onesInFirstLine, 0, 0⟩
      (replicate 8 prompt)).map (fun w => (w.mem 0 64, w.mem 0 65)) = some (1, 1) ∧
    onesInFirstLine 0 65 = 0 ∧
    ¬CopiesExactly ⟨fun _ => 0, false⟩ ⟨3, 0, 0, 64, 0, 1, 0⟩ := by
  refine (and_iff_left_of_imp fun hrun => ⟨by decide, fun h => ?_⟩).mpr (by decide +kernel)
  obtain ⟨w, hw, hbytes⟩ := Option.map_eq_some_iff.mp hrun
  have hmem := ((h VxDma.reset prompt onesInFirstLine rfl).2 _ w hw).1
  have hbyte : w.mem 0 65 = onesInFirstLine 0 65 := by
    rw [hmem]
    exact move_outside (by decide)
  rw [(Prod.mk.inj hbytes).2] at hbyte
  exact absurd hbyte (by decide)

end VortexGpu.Rtl

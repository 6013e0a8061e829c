import VortexGpu.CpUnitSpec
import VortexGpu.Runs
import Mathlib.Algebra.BigOperators.Group.List.Basic
import Mathlib.Data.List.Chain

/-!
# The chunks of a copy

From `S_SETUP` on the copy engine cuts what is left into chunks of one read burst and one write
burst. The bursts of a run are a beginning of the plan, and all of it once the engine signals the
end, which it does after `rank` of the handshakes it waits for, however they are spread. The number
of beats is rounded up in 64 bits, and wraps to none for a size within 63 bytes of the largest.
-/

namespace VortexGpu.Rtl
open List

structure Chunk where
  src : ℕ
  dst : ℕ
  beats : ℕ
deriving DecidableEq, Repr

def chunkPlan : ℕ → ℕ → ℕ → ℕ → List Chunk
  | 0, _, _, _ => []
  | fuel + 1, src, dst, rem =>
    if rem = 0 then []
    else
      let beats := nextChunk src dst rem
      ⟨src, dst, beats⟩ ::
        chunkPlan fuel ((src + 64 * beats) % 2 ^ 64) ((dst + 64 * beats) % 2 ^ 64) (rem - beats)

def chunksOf (src dst rem : ℕ) : List Chunk := chunkPlan rem src dst rem

def InPage (addr beats : ℕ) : Prop := (addr + 64 * beats - 1) / 4096 = addr / 4096

def Chunk.Follows (c d : Chunk) : Prop :=
  d.src = (c.src + 64 * c.beats) % 2 ^ 64 ∧ d.dst = (c.dst + 64 * c.beats) % 2 ^ 64

variable {src dst rem : ℕ}

theorem chunkPlan_enough {fuel : ℕ} (h : rem ≤ fuel) :
    chunkPlan fuel src dst rem = chunksOf src dst rem := by
  induction rem using Nat.strongRecOn generalizing src dst fuel with
  | ind rem ih =>
    by_cases hrem : rem = 0
    · subst hrem
      cases fuel <;> rfl
    · have hpos := (nextChunk_bounds src dst hrem).1
      obtain ⟨fuel, rfl⟩ := Nat.exists_eq_succ_of_ne_zero (show fuel ≠ 0 by omega)
      obtain ⟨n, rfl⟩ := Nat.exists_eq_succ_of_ne_zero hrem
      simp only [chunksOf, chunkPlan, if_neg hrem]
      rw [ih _ (by omega) (by omega), ih _ (by omega) (by omega)]

theorem chunksOf_zero (src dst : ℕ) : chunksOf src dst 0 = [] := rfl

theorem chunksOf_next (hrem : rem ≠ 0) : chunksOf src dst rem =
    ⟨src, dst, nextChunk src dst rem⟩ :: chunksOf ((src + 64 * nextChunk src dst rem) % 2 ^ 64)
      ((dst + 64 * nextChunk src dst rem) % 2 ^ 64) (rem - nextChunk src dst rem) := by
  have hpos := (nextChunk_bounds src dst hrem).1
  obtain ⟨n, rfl⟩ := Nat.exists_eq_succ_of_ne_zero hrem
  simp only [chunksOf, chunkPlan, if_neg hrem]
  rw [chunkPlan_enough (by omega), chunksOf]

theorem chunks_induction {P : ℕ → ℕ → ℕ → Prop} (zero : ∀ src dst, P src dst 0)
    (chunk : ∀ src dst rem, rem ≠ 0 → P ((src + 64 * nextChunk src dst rem) % 2 ^ 64)
      ((dst + 64 * nextChunk src dst rem) % 2 ^ 64) (rem - nextChunk src dst rem) → P src dst rem)
    (src dst rem : ℕ) : P src dst rem := by
  induction rem using Nat.strongRecOn generalizing src dst with
  | ind rem ih =>
    by_cases hrem : rem = 0
    · subst hrem
      exact zero src dst
    · have hpos := (nextChunk_bounds src dst hrem).1
      exact chunk src dst rem hrem (ih _ (by omega) _ _)

theorem inPage_nextChunk_src (hsrc : 64 ∣ src) (hrem : rem ≠ 0) :
    InPage src (nextChunk src dst rem) := by
  have hpos := (nextChunk_bounds src dst hrem).1
  have hle : nextChunk src dst rem ≤ 64 - src / 64 % 64 := by
    simp only [nextChunk, beatsTo4k]
    omega
  simp only [InPage]
  omega

theorem nextChunk_comm (src dst rem : ℕ) : nextChunk src dst rem = nextChunk dst src rem := by
  simp only [nextChunk, min_comm (beatsTo4k src)]

theorem aligned_next {addr beats : ℕ} (h : 64 ∣ addr) :
    64 ∣ (addr + 64 * beats) % 2 ^ 64 := by
  omega

theorem chunksOf_bounds (hsrc : 64 ∣ src) (hdst : 64 ∣ dst) :
    ∀ c ∈ chunksOf src dst rem, 1 ≤ c.beats ∧ c.beats ≤ 64 ∧ InPage c.src c.beats ∧
    InPage c.dst c.beats := by
  induction src, dst, rem using chunks_induction with
  | zero => simp [chunksOf_zero]
  | chunk src dst rem hrem ih =>
    rw [chunksOf_next hrem]
    intro c hc
    rcases mem_cons.mp hc with rfl | hc
    · have hbound := nextChunk_bounds src dst hrem
      refine ⟨hbound.1, hbound.2.1, inPage_nextChunk_src hsrc hrem, ?_⟩
      simp only [nextChunk_comm src dst]
      exact inPage_nextChunk_src hdst hrem
    · exact ih (aligned_next hsrc) (aligned_next hdst) c hc

theorem chunksOf_pos : ∀ c ∈ chunksOf src dst rem, 0 < c.beats := by
  induction src, dst, rem using chunks_induction with
  | zero => simp [chunksOf_zero]
  | chunk src dst rem hrem ih =>
    rw [chunksOf_next hrem]
    exact forall_mem_cons.mpr ⟨(nextChunk_bounds src dst hrem).1, ih⟩

theorem chunksOf_sum (src dst rem : ℕ) : ((chunksOf src dst rem).map Chunk.beats).sum = rem := by
  induction src, dst, rem using chunks_induction with
  | zero => rfl
  | chunk src dst rem hrem ih =>
    have hle := (nextChunk_bounds src dst hrem).2.2
    rw [chunksOf_next hrem, map_cons, sum_cons, ih]
    simp only
    omega

theorem chunksOf_head {c : Chunk} (h : (chunksOf src dst rem).head? = some c) :
    c.src = src ∧ c.dst = dst := by
  by_cases hrem : rem = 0
  · rw [hrem, chunksOf_zero] at h
    cases h
  · rw [chunksOf_next hrem] at h
    cases h
    exact ⟨rfl, rfl⟩

theorem chunksOf_follows (src dst rem : ℕ) : (chunksOf src dst rem).IsChain Chunk.Follows := by
  induction src, dst, rem using chunks_induction with
  | zero => exact .nil
  | chunk src dst rem hrem ih =>
    rw [chunksOf_next hrem, isChain_cons]
    exact ⟨fun d hd => chunksOf_head hd, ih⟩

def burst : BusOp → Option (Bool × Port × ℕ × ℕ)
  | .ar p addr beats => some (false, p, addr, beats)
  | .aw p addr beats => some (true, p, addr, beats)
  | _ => none

def Chunk.readBurst (op : ℕ) (c : Chunk) : Bool × Port × ℕ × ℕ :=
  (false, readPort op, c.src, c.beats)

def Chunk.writeBurst (op : ℕ) (c : Chunk) : Bool × Port × ℕ × ℕ :=
  (true, writePort op, c.dst, c.beats)

def planBursts (op : ℕ) (cs : List Chunk) : List (Bool × Port × ℕ × ℕ) :=
  cs.flatMap fun c => [c.readBurst op, c.writeBurst op]

namespace VxDma

def bursts : VxDma → List UnitIn → List (Bool × Port × ℕ × ℕ)
  | _, [] => []
  | s, i :: is =>
    let r := s.clock none i
    r.2.1.filterMap burst ++ if r.2.2 then [] else bursts r.1 is

def finishes (s : VxDma) (is : List UnitIn) : Bool :=
  Runs.stops (fun s i => (s.clock none i).1) (fun s i => (s.clock none i).2.2) s is

/-- The clocks with the handshake of the channel the engine works on. -/
def awaited (s : VxDma) (is : List UnitIn) : ℕ :=
  Runs.awaited (fun s i => (s.clock none i).1) handshake s is

def chunk (s : VxDma) : Chunk := ⟨s.src, s.dst, s.chunkBeats⟩

def later (s : VxDma) : List Chunk :=
  chunksOf ((s.src + 64 * s.chunkBeats) % 2 ^ 64) ((s.dst + 64 * s.chunkBeats) % 2 ^ 64)
    (s.remBeats - s.chunkBeats)

def todo (s : VxDma) : List (Bool × Port × ℕ × ℕ) :=
  match s.state with
  | .setup => planBursts s.op (chunksOf s.src s.dst s.remBeats)
  | .reqAr => s.chunk.readBurst s.op :: s.chunk.writeBurst s.op :: planBursts s.op s.later
  | .read | .reqAw => s.chunk.writeBurst s.op :: planBursts s.op s.later
  | .write | .waitB => planBursts s.op s.later
  | .idle | .done => []

def rank (s : VxDma) : ℕ :=
  match s.state with
  | .idle => 0
  | .setup => 6 * s.remBeats + 2
  | .reqAr => 6 * s.remBeats + 1
  | .read => 6 * s.remBeats - s.beatIdx
  | .reqAw => 6 * s.remBeats - s.chunkBeats
  | .write => 6 * s.remBeats - s.chunkBeats - 1 - s.beatIdx
  | .waitB => 6 * s.remBeats - 2 * s.chunkBeats - 1
  | .done => 1

def Working (s : VxDma) : Prop := s.Sound ∧ s.remBeats < 2 ^ 64

variable {s : VxDma} {i : UnitIn} {r : VxDma × List BusOp × Bool}

theorem Working.inChunk (h : s.Working)
    (hstate : s.state ≠ .idle ∧ s.state ≠ .setup ∧ s.state ≠ .done) : s.InChunk := by
  obtain ⟨hsound, _⟩ := h
  cases hs : s.state <;> simp_all [Sound]

theorem todo_clock (h : s.Working) (hc : Clocked s i r) :
    r.2.1.filterMap burst ++ r.1.todo = s.todo := by
  cases hc with
  | wait _ => rfl
  | stop hstate hrem =>
    simp only [todo, hstate, hrem, chunksOf_zero]
    rfl
  | setup hstate hrem =>
    simp only [todo, hstate]
    rw [chunksOf_next hrem]
    rfl
  | ar hstate | read hstate _ | readLast hstate _ | aw hstate | write hstate _
  | writeLast hstate _ =>
    simp only [todo, hstate]
    rfl
  | b hstate =>
    rw [(h.inChunk (by simp [hstate])).advance_eq h.2]
    simp only [todo, hstate, later]
    rfl
  | done hstate =>
    simp only [todo, hstate]
    rfl

theorem working_clock (h : s.Working)
    (hc : Clocked s i r) : if r.2.2 then s.state = .done else r.1.Working := by
  obtain ⟨hsound, hlt⟩ := h
  cases hc with
  | wait _ => exact ⟨hsound, hlt⟩
  | stop _ _ => exact ⟨trivial, hlt⟩
  | setup _ hrem => exact ⟨⟨hrem, rfl, (nextChunk_bounds s.src s.dst hrem).1⟩, hlt⟩
  | ar hstate | readLast hstate _ | aw hstate =>
    obtain ⟨hrem, hchunk, hidx⟩ : s.InChunk := by simpa [Sound, hstate] using hsound
    exact ⟨⟨hrem, hchunk, Nat.zero_lt_of_lt hidx⟩, hlt⟩
  | read hstate hmore | write hstate hmore =>
    obtain ⟨hrem, hchunk, _⟩ : s.InChunk := by simpa [Sound, hstate] using hsound
    refine ⟨?_, hlt⟩
    simp only [Sound, hstate]
    exact ⟨hrem, hchunk, hmore⟩
  | writeLast hstate _ =>
    obtain ⟨hrem, hchunk, hidx⟩ : s.InChunk := by simpa [Sound, hstate] using hsound
    exact ⟨⟨hrem, hchunk, hidx⟩, hlt⟩
  | b _ => exact ⟨trivial, Nat.mod_lt _ (by decide)⟩
  | done hstate => exact hstate

theorem Working.beats (h : s.Working)
    (hstate : s.state ≠ .idle ∧ s.state ≠ .setup ∧ s.state ≠ .done) :
    s.chunkBeats ≤ s.remBeats ∧ s.beatIdx < s.chunkBeats :=
  ⟨(h.inChunk hstate).bounds.2.2, (h.inChunk hstate).2.2⟩

theorem Working.rank_pos (h : s.Working) : 0 < s.rank := by
  cases hstate : s.state with
  | idle => simp [Working, Sound, hstate] at h
  | setup | done => simp [rank, hstate]
  | _ =>
    have hbeats := h.beats (by simp [hstate])
    simp only [rank, hstate]
    omega

theorem rank_clock (h : s.Working) (hc : Clocked s i r) :
    r.1.rank + (s.handshake i).toNat ≤ s.rank := by
  have hshake := (s.handshake i).toNat_le
  cases hc with
  | wait hwait => simp [hwait]
  | stop hstate hrem | setup hstate hrem | ar hstate =>
    simp only [rank, hstate]
    omega
  | read hstate hmore | readLast hstate hlast | aw hstate | write hstate hmore
  | writeLast hstate hlast =>
    have hbeats := h.beats (by simp [hstate])
    simp only [rank, hstate]
    omega
  | b hstate =>
    have hbeats := h.beats (by simp [hstate])
    rw [(h.inChunk (by simp [hstate])).advance_eq h.2]
    simp only [rank, hstate]
    omega
  | done hstate =>
    simp only [rank, hstate]
    omega

theorem bursts_run (h : s.Working) (is : List UnitIn) :
    s.bursts is <+: s.todo ∧ (s.finishes is = true → s.bursts is = s.todo) := by
  induction is generalizing s with
  | nil => exact ⟨List.nil_prefix, fun hf => Bool.noConfusion hf⟩
  | cons i is ih =>
    have hc := clocked none i h.1
    have htodo := todo_clock h hc
    have hwork := working_clock h hc
    simp only [bursts, finishes, Runs.stops]
    cases hd : (s.clock none i).2.2 with
    | true =>
      rw [hd, if_pos rfl] at hwork
      have hnone : s.todo = [] := by simp [todo, hwork]
      rw [hnone, append_eq_nil_iff] at htodo
      rw [htodo.1, hnone]
      exact ⟨prefix_rfl, fun _ => rfl⟩
    | false =>
      rw [hd] at hwork
      obtain ⟨hbegin, hall⟩ := ih hwork
      rw [← htodo]
      exact ⟨(prefix_append_right_inj _).mpr hbegin, fun hf => congrArg _ (hall hf)⟩

theorem finishes_of_awaited (h : s.Working) {is : List UnitIn} (hcount : s.rank ≤ s.awaited is) :
    s.finishes is = true := by
  refine Runs.stops_of_awaited rank (I := Working) (fun s hs => hs.rank_pos) (fun s i hs => ?_) h
    hcount
  have hc := clocked none i hs.1
  have hwork := working_clock hs hc
  cases hd : (s.clock none i).2.2 with
  | true => exact .inl rfl
  | false =>
    rw [hd] at hwork
    exact .inr ⟨hwork, rank_clock hs hc⟩

theorem working_grant (c : CpCmd) (i : UnitIn) (hidle : s.state = .idle) :
    (s.clock (some c) i).1.Working := by
  simp only [clock, hidle]
  exact ⟨trivial, by simp only; omega⟩

theorem todo_grant (c : CpCmd) (i : UnitIn) (hidle : s.state = .idle) :
    (s.clock (some c) i).1.todo =
      planBursts c.opcode (chunksOf c.arg1 c.arg0 ((c.arg2 + 63) % 2 ^ 64 / 64)) := by
  simp only [clock, hidle, todo]

end VxDma

/-- What the engine does with a copy it is granted, under any timing of the memories: the lines of
its size go in chunks of 1 to 64 beats, each where the last one ended and with no burst across a 4
KB boundary; a run issues a beginning of the bursts, all of them if it ends, and it ends when the
handshakes it waits for keep coming. -/
def CopiesInChunks (c : CpCmd) : Prop :=
  ∀ (s : VxDma) (i : UnitIn), s.state = .idle → ∃ cs : List Chunk,
    (∀ k ∈ cs, 1 ≤ k.beats ∧ k.beats ≤ 64 ∧ InPage k.src k.beats ∧
      InPage k.dst k.beats) ∧
    (cs.map Chunk.beats).sum = (c.arg2 + 63) / 64 ∧
    (∀ k, cs.head? = some k → k.src = c.arg1 ∧ k.dst = c.arg0) ∧
    cs.IsChain Chunk.Follows ∧
    (∀ is, (s.clock (some c) i).1.bursts is <+: planBursts c.opcode cs ∧
      ((s.clock (some c) i).1.finishes is = true →
        (s.clock (some c) i).1.bursts is = planBursts c.opcode cs)) ∧
    ∃ n, ∀ is, n ≤ (s.clock (some c) i).1.awaited is →
    (s.clock (some c) i).1.finishes is = true

theorem planBursts_eq_nil {op : ℕ} {cs : List Chunk} (h : planBursts op cs = []) : cs = [] := by
  cases cs with
  | nil => rfl
  | cons c cs => simp [planBursts] at h

def prompt : UnitIn := ⟨false, false, 0, fun _ => ⟨true, true, 0, true, true, true⟩⟩

theorem handshake_prompt (s : VxDma) : s.handshake prompt = true := by
  cases hstate : s.state <;> simp [VxDma.handshake, hstate, prompt]

/-- A size that wraps to no beats ends without a burst. -/
theorem not_copiesInChunks {c : CpCmd} (hsize : c.arg2 < 2 ^ 64) (hwrap : 2 ^ 64 ≤ c.arg2 + 63) :
    ¬CopiesInChunks c := by
  intro h
  obtain ⟨cs, _, hsum, _, _, hruns, n, hend⟩ := h .reset prompt rfl
  have hfin := hend (.replicate n prompt) (Runs.awaited_replicate handshake_prompt n).ge
  have hall := (VxDma.bursts_run (VxDma.working_grant c prompt rfl) _).2 hfin
  rw [(hruns _).2 hfin, VxDma.todo_grant c prompt rfl,
    show (c.arg2 + 63) % 2 ^ 64 / 64 = 0 by omega, chunksOf_zero] at hall
  rw [planBursts_eq_nil hall] at hsum
  simp only [map_nil, sum_nil] at hsum
  omega

/-- The copies of aligned addresses are cut as they should be exactly if the size rounded up to
lines fits the 64 bits in which it is rounded. -/
theorem copiesInChunks_iff {c : CpCmd} (hsize : c.arg2 < 2 ^ 64) (hdst : 64 ∣ c.arg0)
    (hsrc : 64 ∣ c.arg1) : CopiesInChunks c ↔ c.arg2 + 63 < 2 ^ 64 := by
  constructor
  · intro h
    by_contra hwrap
    exact not_copiesInChunks hsize (by omega) h
  · intro hfits s i hidle
    have hwork := VxDma.working_grant c i hidle
    have htodo := VxDma.todo_grant c i hidle
    rw [Nat.mod_eq_of_lt hfits] at htodo
    refine ⟨chunksOf c.arg1 c.arg0 ((c.arg2 + 63) / 64), chunksOf_bounds hsrc hdst,
      chunksOf_sum _ _ _, fun k hk => chunksOf_head hk, chunksOf_follows _ _ _, fun is => ?_, _,
      fun is hcount => VxDma.finishes_of_awaited hwork hcount⟩
    rw [← htodo]
    exact VxDma.bursts_run hwork is

/-- Three lines whose destination starts with the last line of a page: two chunks. -/
theorem copiesInChunks_two_pages : CopiesInChunks ⟨3, 0, 0, 4032, 128, 192, 0⟩ :=
  (copiesInChunks_iff (by decide) (by decide) (by decide)).mpr (by decide)

example : chunksOf 128 4032 3 = [⟨128, 4032, 1⟩, ⟨192, 4096, 2⟩] := by decide

/-- The largest size is taken for no beats at all. -/
theorem largest_copy_moves_nothing : ¬CopiesInChunks ⟨3, 0, 0, 0, 0, 2 ^ 64 - 1, 0⟩ :=
  not_copiesInChunks (by decide) (by decide)

end VortexGpu.Rtl

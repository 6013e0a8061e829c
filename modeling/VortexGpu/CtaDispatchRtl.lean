import Mathlib.Data.Finset.Card
import Mathlib.Data.List.ReduceOption
import VortexGpu.KmuRtl

/-!
# The warps of a CTA in hardware

The dispatch machine of a core picks a free warp in one clock and fires it in the next. The
picked mask is registered when the warp is picked, the size of what is left is reduced when it
fires, and both can happen in one clock for two warps in a row.
-/

namespace VortexGpu.Rtl
open Word Simx Runs List Function CoreConfig

def ntBits [CoreConfig] : ℕ := Nat.clog 2 numThreads
def tidWidth [CoreConfig] : ℕ := max 1 (Nat.clog 2 numWarps + ntBits)

inductive FsmState
  | idle
  | dispatch
deriving DecidableEq, Repr

/-- What the machine takes from a request of the kernel management unit. -/
structure CtaReq where
  ctxId : ℕ
  blockSize : ℕ
  blockDim : Dim3
  warpStep : Dim3

structure VxDispatch where
  state : FsmState
  curCtxId : ℕ
  blockSize : ℕ
  blockDim : Dim3
  warpStep : Dim3
  threadIdx : Dim3
  ctaRank : ℕ
  warpFire : Bool
  warpId : ℕ
  warpTmask : ℕ
  warpSkipInit : Bool
  warpInitMask : ℕ → Bool
  dispatchedWarps : ℕ → Bool

structure WarpFire where
  wid : ℕ
  tmask : ℕ
  rank : ℕ
  threadIdx : Dim3
  init : Bool

namespace VxDispatch
variable [CoreConfig] (s : VxDispatch)

def warpReady (active : ℕ → Bool) : Option ℕ :=
  (range numWarps).find? fun wid => !(active wid || s.dispatchedWarps wid)

def sizeHigh : ℕ := s.blockSize / 2 ^ ntBits
def sizeLow : ℕ := s.blockSize % 2 ^ ntBits

def ctaNumWarps : ℕ :=
  (s.sizeHigh % 2 ^ (nwWidth + 1) + if s.sizeLow = 0 then 0 else 1) % 2 ^ (nwWidth + 1)

def blockSizeNext : ℕ :=
  (s.sizeHigh + 2 ^ (tidWidth + 1 - ntBits) - 1) % 2 ^ (tidWidth + 1 - ntBits) *
    2 ^ ntBits + s.sizeLow

def partialTmask : ℕ := (2 ^ s.sizeLow + 2 ^ numThreads - 1) % 2 ^ numThreads

def isFullWarp : Bool := s.sizeHigh != 0
def isLastWarp : Bool := s.ctaNumWarps == 1

def threadIdxNext : Dim3 :=
  let w := 2 ^ tidWidth
  let nextX := s.threadIdx.x + s.warpStep.x
  let wrapX := s.blockDim.x % w ≤ nextX
  let nextY := (s.threadIdx.y + s.warpStep.y + if wrapX then 1 else 0) % (2 * w)
  let wrapY := s.blockDim.y % w ≤ nextY
  { x := if wrapX then (nextX - s.blockDim.x % w) % w else nextX % w
    y := if wrapY then (nextY - s.blockDim.y % w) % w else nextY % w
    z := (s.threadIdx.z + s.warpStep.z + if wrapY then 1 else 0) % w }

def accept (r : CtaReq) : VxDispatch :=
  { s with
    curCtxId := r.ctxId
    warpInitMask := if r.ctxId = s.curCtxId then s.warpInitMask else fun _ => false
    blockSize := r.blockSize
    blockDim := r.blockDim
    warpStep := r.warpStep
    ctaRank := 0
    threadIdx := ⟨0, 0, 0⟩
    dispatchedWarps := fun _ => false
    state := .dispatch }

def pick : Option ℕ → VxDispatch
  | some wid =>
    { s with
      warpFire := true
      warpId := wid
      dispatchedWarps := update s.dispatchedWarps wid true
      warpTmask := if s.isFullWarp then 2 ^ numThreads - 1 else s.partialTmask
      warpSkipInit := s.warpInitMask wid }
  | none => { s with warpFire := false }

/-- The registers of a clock in which a warp fires; what is picked in the same clock is in `p`. -/
def fired (p : VxDispatch) : VxDispatch :=
  { p with
    ctaRank := (s.ctaRank + 1) % 2 ^ nwWidth
    blockSize := s.blockSizeNext
    warpInitMask := update s.warpInitMask s.warpId true
    threadIdx := s.threadIdxNext
    warpFire := if s.isLastWarp then false else p.warpFire
    state := if s.isLastWarp then .idle else p.state }

def clock (active : ℕ → Bool) (req : Option CtaReq) : VxDispatch :=
  match s.state with
  | .idle => match req with
    | some r => s.accept r
    | none => s
  | .dispatch =>
    let p := s.pick (s.warpReady active)
    if s.warpFire then s.fired p else p

def output : Option WarpFire :=
  if s.warpFire then some ⟨s.warpId, s.warpTmask, s.ctaRank, s.threadIdx, !s.warpSkipInit⟩
  else none

def step (s : VxDispatch) (active : ℕ → Bool) : Option (VxDispatch × Option WarpFire) :=
  some (s.clock active none, s.output)

/-- The remaining threads are more than one warp and less than two, and a warp is picked while
another one fires. -/
def overlaps (s : VxDispatch) (active : ℕ → Bool) : Bool :=
  s.warpFire && (s.warpReady active).isSome &&
    decide (numThreads < s.blockSize ∧ s.blockSize < 2 * numThreads)

end VxDispatch

open VxDispatch

section Size
variable [CoreConfig] {s : VxDispatch}

theorem sizeHigh_lt (hlt : s.blockSize < 2 ^ (tidWidth + 1)) :
    s.sizeHigh < 2 ^ (tidWidth + 1 - ntBits) ∧ s.sizeHigh < 2 ^ (nwWidth + 1) := by
  have hle : ntBits ≤ tidWidth + 1 := by
    unfold tidWidth
    omega
  have hhigh : s.sizeHigh < 2 ^ (tidWidth + 1 - ntBits) := by
    apply Nat.div_lt_of_lt_mul
    rwa [← pow_add, Nat.add_sub_cancel' hle]
  refine ⟨hhigh, lt_of_lt_of_le hhigh (Nat.pow_le_pow_right (by omega) ?_)⟩
  unfold tidWidth nwWidth
  omega

section
variable (hT : numThreads = 2 ^ ntBits)
include hT

theorem size_split :
    s.sizeHigh * numThreads + s.sizeLow = s.blockSize ∧ s.sizeLow < numThreads := by
  rw [sizeHigh, sizeLow, ← hT]
  exact ⟨Nat.div_add_mod' _ _, Nat.mod_lt _ numThreads_pos⟩

theorem isFullWarp_iff : s.isFullWarp = true ↔ numThreads ≤ s.blockSize := by
  rw [isFullWarp, bne_iff_ne, sizeHigh, ← hT, Nat.div_ne_zero_iff]
  exact and_iff_right numThreads_pos.ne'

theorem isLastWarp_iff (hpos : 0 < s.blockSize) (hlt : s.blockSize < 2 ^ (tidWidth + 1)) :
    s.isLastWarp = true ↔ s.blockSize ≤ numThreads := by
  obtain ⟨hsplit, hlow⟩ := size_split (s := s) hT
  have hhigh := (sizeHigh_lt hlt).2
  have hfour : 2 ^ 2 ≤ 2 ^ (nwWidth + 1) := by
    apply Nat.pow_le_pow_right (by omega)
    unfold nwWidth
    omega
  rw [isLastWarp, beq_iff_eq, ctaNumWarps, Nat.mod_eq_of_lt hhigh]
  generalize s.sizeHigh = high at *
  generalize s.sizeLow = low at *
  generalize 2 ^ (nwWidth + 1) = m at *
  -- the sum reaches the width only with all upper bits set, and is then zero
  have hsum : (high + if low = 0 then 0 else 1) % m = 1 ↔
      (high + if low = 0 then 0 else 1) = 1 := by
    by_cases hfull : (high + if low = 0 then 0 else 1) < m
    · rw [Nat.mod_eq_of_lt hfull]
    · have heq : (high + if low = 0 then 0 else 1) = m := by
        split_ifs at hfull ⊢ <;> omega
      rw [heq, Nat.mod_self]
      omega
  rw [hsum]
  rcases lt_or_ge high 2 with hsmall | hbig
  · obtain rfl | rfl : high = 0 ∨ high = 1 := by omega
    all_goals split_ifs <;> omega
  · have hmul := Nat.mul_le_mul_right numThreads hbig
    split_ifs <;> omega

theorem blockSizeNext_eq (hlt : s.blockSize < 2 ^ (tidWidth + 1))
    (hle : numThreads ≤ s.blockSize) : s.blockSizeNext = s.blockSize - numThreads := by
  obtain ⟨hsplit, hlow⟩ := size_split (s := s) hT
  have hhigh := (sizeHigh_lt hlt).1
  have hone : 0 < s.sizeHigh := by
    rw [sizeHigh, ← hT]
    exact Nat.div_pos hle numThreads_pos
  rw [blockSizeNext, ← hT]
  rw [Nat.sub_add_comm hone, Nat.add_mod_right, Nat.mod_eq_of_lt (by omega), Nat.sub_mul,
    Nat.one_mul]
  have := Nat.le_mul_of_pos_left numThreads hone
  omega

end

/-- The low lanes of a warp that has `n` threads left to run. -/
def lanes (n : ℕ) : ℕ := 2 ^ min numThreads n - 1

theorem picked_tmask (hT : numThreads = 2 ^ ntBits) :
    (if s.isFullWarp then 2 ^ numThreads - 1 else s.partialTmask) = lanes s.blockSize := by
  by_cases hle : numThreads ≤ s.blockSize
  · rw [if_pos ((isFullWarp_iff hT).mpr hle), lanes, min_eq_left hle]
  have hlt : s.blockSize < numThreads := Nat.lt_of_not_le hle
  have hlow : s.sizeLow = s.blockSize := by
    rw [sizeLow, ← hT]
    exact Nat.mod_eq_of_lt hlt
  have hpow : 2 ^ s.blockSize < 2 ^ numThreads := Nat.pow_lt_pow_right (by omega) hlt
  have hpos := Nat.two_pow_pos s.blockSize
  rw [if_neg (fun h => hle ((isFullWarp_iff hT).mp h)), partialTmask, hlow, lanes,
    min_eq_right (le_of_lt hlt),
    show 2 ^ s.blockSize + 2 ^ numThreads - 1 = 2 ^ s.blockSize - 1 + 2 ^ numThreads by omega,
    Nat.add_mod_right]
  exact Nat.mod_eq_of_lt (by omega)

end Size

def usedWarps [CoreConfig] (s : VxDispatch) : Finset ℕ :=
  (Finset.range numWarps).filter fun w => s.dispatchedWarps w = true

/-- The machine after `f` warps of a CTA of `B` threads have fired. -/
structure Mid [CoreConfig] (B f : ℕ) (s : VxDispatch) : Prop where
  state : s.state = .dispatch
  more : f * numThreads < B
  size : s.blockSize = B - f * numThreads
  pending : s.warpFire = true → s.warpTmask = lanes (B - f * numThreads) ∧
    s.dispatchedWarps s.warpId = true
  used : (usedWarps s).card = f + if s.warpFire then 1 else 0

structure Picks (active : ℕ → Bool) (s t : VxDispatch) : Prop where
  grows : ∀ w, s.dispatchedWarps w = true → t.dispatchedWarps w = true
  fresh : t.warpFire = true → active t.warpId = false ∧ s.dispatchedWarps t.warpId = false ∧
    t.dispatchedWarps t.warpId = true

section Clock
variable [CoreConfig] {B f : ℕ} {s : VxDispatch} {active : ℕ → Bool}

theorem warpReady_some {wid : ℕ} (h : s.warpReady active = some wid) :
    wid < numWarps ∧ active wid = false ∧ s.dispatchedWarps wid = false := by
  have hfree := find?_some h
  have hmem := mem_of_find?_eq_some h
  simp only [Bool.not_eq_true', Bool.or_eq_false_iff] at hfree
  exact ⟨mem_range.mp hmem, hfree⟩

theorem picks_pick (s : VxDispatch) (active : ℕ → Bool) :
    Picks active s (s.pick (s.warpReady active)) := by
  cases hready : s.warpReady active with
  | none => exact ⟨fun w hw => hw, fun h => absurd h (by simp [pick])⟩
  | some wid =>
    obtain ⟨_, hactive, hfree⟩ := warpReady_some hready
    refine ⟨?_, fun _ => ⟨hactive, hfree, update_self _ _ _⟩⟩
    intro w hw
    simp only [pick, update_apply]
    split_ifs
    · rfl
    · exact hw

theorem card_used_pick (s : VxDispatch) (active : ℕ → Bool) :
    (usedWarps (s.pick (s.warpReady active))).card =
      (usedWarps s).card + if (s.pick (s.warpReady active)).warpFire then 1 else 0 := by
  cases hready : s.warpReady active with
  | none => rfl
  | some wid =>
    obtain ⟨hlt, _, hfree⟩ := warpReady_some hready
    have hinsert : usedWarps (s.pick (some wid)) = insert wid (usedWarps s) := by
      ext w
      simp only [usedWarps, pick, Finset.mem_filter, Finset.mem_insert, Finset.mem_range,
        update_apply]
      by_cases hw : w = wid
      · simp [hw, hlt]
      · simp [hw]
    have hnotin : wid ∉ usedWarps s := by simp [usedWarps, hfree]
    rw [hinsert]
    exact Finset.card_insert_of_notMem hnotin

theorem Mid.quiet (hT : numThreads = 2 ^ ntBits) (h : Mid B f s) (hfire : s.warpFire = false)
    (active : ℕ → Bool) :
    Mid B f (s.clock active none) ∧ Picks active s (s.clock active none) := by
  have hpicks := picks_pick s active
  have hclock : s.clock active none = s.pick (s.warpReady active) := by
    simp [clock, h.state, hfire]
  rw [hclock]
  have hused := card_used_pick s active
  rw [h.used, hfire] at hused
  refine ⟨?_, hpicks⟩
  cases hready : s.warpReady active with
  | none =>
    rw [hready] at hused
    exact ⟨h.state, h.more, h.size, fun hf => absurd hf (by simp [pick]), hused⟩
  | some wid =>
    rw [hready] at hused
    refine ⟨h.state, h.more, h.size, fun _ => ⟨?_, update_self _ _ _⟩, hused⟩
    rw [← h.size]
    exact picked_tmask hT

section
variable (h : Mid B f s) (hfire : s.warpFire = true)
include h hfire

theorem Mid.clock_fire (active : ℕ → Bool) :
    s.clock active none = s.fired (s.pick (s.warpReady active)) := by
  simp [clock, h.state, hfire]

variable (hT : numThreads = 2 ^ ntBits) (hB : B < 2 ^ (tidWidth + 1))
include hT hB

theorem Mid.fire (hmore : (f + 1) * numThreads < B) (hok : s.overlaps active = false) :
    Mid B (f + 1) (s.clock active none) ∧ Picks active s (s.clock active none) := by
  have hsize := h.size
  rw [Nat.succ_mul] at hmore
  have hlast : s.isLastWarp = false := by
    rw [← Bool.not_eq_true, isLastWarp_iff hT (by omega) (by omega)]
    omega
  have hnext := blockSizeNext_eq hT (s := s) (by omega) (by omega)
  rw [h.clock_fire hfire]
  have hflag : (s.fired (s.pick (s.warpReady active))).warpFire =
      (s.pick (s.warpReady active)).warpFire := by simp [fired, hlast]
  have hpicks : Picks active s (s.fired (s.pick (s.warpReady active))) := by
    refine ⟨(picks_pick s active).grows, ?_⟩
    rw [hflag]
    exact (picks_pick s active).fresh
  have hused := card_used_pick s active
  rw [h.used, hfire, ← hflag] at hused
  refine ⟨⟨?_, ?_, ?_, ?_, hused⟩, hpicks⟩
  · cases hready : s.warpReady active with
    | none | some wid => simp [fired, pick, hlast, h.state]
  · rw [Nat.succ_mul]
    omega
  · rw [Nat.succ_mul]
    simp only [fired]
    omega
  · intro hpending
    refine ⟨?_, (hpicks.fresh hpending).2.2⟩
    cases hready : s.warpReady active with
    | none => simp [hready, fired, pick] at hpending
    | some wid =>
      -- the mask was formed from the size before this fire, so both must be full warps
      simp only [overlaps, hfire, hready, Option.isSome_some, Bool.and_self, Bool.true_and,
        decide_eq_false_iff_not, not_and, not_lt] at hok
      have hmask : (s.fired (s.pick (some wid))).warpTmask = lanes s.blockSize := picked_tmask hT
      rw [hmask, lanes, lanes, min_eq_left (by omega), min_eq_left (by rw [Nat.succ_mul]; omega)]

theorem Mid.last (hlast : B ≤ (f + 1) * numThreads) (active : ℕ → Bool) :
    (s.clock active none).state = .idle ∧ (s.clock active none).warpFire = false ∧
      Picks active s (s.clock active none) := by
  have hsize := h.size
  have hmore := h.more
  rw [Nat.succ_mul] at hlast
  have hlast' : s.isLastWarp = true := (isLastWarp_iff hT (by omega) (by omega)).mpr (by omega)
  have hquiet : (s.fired (s.pick (s.warpReady active))).warpFire = false := by
    simp [fired, hlast']
  rw [h.clock_fire hfire]
  exact ⟨by simp [fired, hlast'], hquiet, (picks_pick s active).grows, by simp [hquiet]⟩

end

end Clock

/-- What the machine does from `s` on, with `f` of the warps of a CTA of `B` threads fired before.
-/
structure Fires [CoreConfig] (B f : ℕ) (s : VxDispatch) (actives : List (ℕ → Bool))
    (t : VxDispatch) (outs : List (Option WarpFire)) : Prop where
  masks : ∀ (k : ℕ) (x : WarpFire), outs.reduceOption[k]? = some x →
    x.tmask = lanes (B - (f + k) * numThreads)
  count : f + outs.reduceOption.length ≤ (B + numThreads - 1) / numThreads
  complete : t.state = .idle → f + outs.reduceOption.length = (B + numThreads - 1) / numThreads
  nodup : (outs.reduceOption.map WarpFire.wid).Nodup
  fresh : ∀ x ∈ outs.reduceOption, (s.warpFire = true ∧ x.wid = s.warpId) ∨
    s.dispatchedWarps x.wid = false
  head : ∀ x : WarpFire, outs[0]? = some (some x) → s.warpFire = true ∧ x.wid = s.warpId
  free : ∀ (i : ℕ) (x : WarpFire), outs[i + 1]? = some (some x) →
    ∃ active, actives[i]? = some active ∧ active x.wid = false

section Runs
variable [CoreConfig] {B f : ℕ} {s t : VxDispatch}

theorem run_idle (hstate : s.state = .idle) (hfire : s.warpFire = false)
    (actives : List (ℕ → Bool)) :
    run step s actives = some (s, replicate actives.length none) := by
  induction actives with
  | nil => rfl
  | cons active actives ih =>
    have hstep : step s active = some (s, none) := by
      simp [step, clock, output, hstate, hfire]
    rw [run_cons actives hstep, ih]
    rfl

theorem step_eq (s : VxDispatch) (active : ℕ → Bool) :
    step s active = some (s.clock active none, s.output) := rfl

variable {active : ℕ → Bool} {actives : List (ℕ → Bool)} {u : VxDispatch}
  {outs : List (Option WarpFire)}

omit [CoreConfig] in
theorem Picks.fresh_before (h : Picks active s t) {w : ℕ}
    (hw : (t.warpFire = true ∧ w = t.warpId) ∨ t.dispatchedWarps w = false) :
    s.dispatchedWarps w = false := by
  rcases hw with ⟨hfire, rfl⟩ | hw
  · exact (h.fresh hfire).2.1
  · by_contra hne
    rw [h.grows w (Bool.eq_true_of_not_eq_false hne)] at hw
    exact Bool.noConfusion hw

theorem Picks.free (h : Picks active s t) (hf : Fires B f t actives u outs) (i : ℕ)
    (x : WarpFire) (hx : outs[i]? = some (some x)) :
    ∃ a, (active :: actives)[i]? = some a ∧ a x.wid = false := by
  cases i with
  | zero =>
    obtain ⟨hfire, hwid⟩ := hf.head x hx
    exact ⟨active, rfl, hwid ▸ (h.fresh hfire).1⟩
  | succ i => exact hf.free i x hx

theorem Fires.quiet (h : Fires B f t actives u outs) (hp : Picks active s t) :
    Fires B f s (active :: actives) u (none :: outs) :=
  { h with
    fresh := fun x hx => .inr (hp.fresh_before (h.fresh x hx))
    head := by simp
    free := fun i x hx => hp.free h i x hx }

theorem Fires.fire (h : Fires B (f + 1) t actives u outs) (hm : Mid B f s)
    (hfire : s.warpFire = true) (hp : Picks active s t) :
    Fires B f s (active :: actives) u (s.output :: outs) := by
  obtain ⟨hmask, hused⟩ := hm.pending hfire
  have hout : s.output = some ⟨s.warpId, s.warpTmask, s.ctaRank, s.threadIdx,
      !s.warpSkipInit⟩ := by
    simp [output, hfire]
  have hcount := h.count
  rw [hout]
  refine ⟨?_, ?_, ?_, ?_, ?_, ?_, fun i x hx => hp.free h i x hx⟩
  · intro k x hx
    cases k with
    | zero =>
      cases hx
      exact hmask
    | succ k => rw [h.masks k x hx, add_assoc, add_comm 1 k]
  · rw [reduceOption_cons_of_some, length_cons]
    omega
  · intro hidle
    have hend := h.complete hidle
    rw [reduceOption_cons_of_some, length_cons]
    omega
  · rw [reduceOption_cons_of_some, map_cons, nodup_cons]
    refine ⟨?_, h.nodup⟩
    intro hmem
    obtain ⟨x, hx, hwid⟩ := mem_map.mp hmem
    have hfresh := hp.fresh_before (h.fresh x hx)
    rw [hwid, hused] at hfresh
    exact Bool.noConfusion hfresh
  · intro x hx
    rcases mem_cons.mp hx with rfl | hx
    · exact .inl ⟨hfire, rfl⟩
    · exact .inr (hp.fresh_before (h.fresh x hx))
  · intro x hx
    cases Option.some.inj hx
    exact ⟨hfire, rfl⟩

theorem fires_idle (t : VxDispatch) (actives : List (ℕ → Bool))
    (hend : f = (B + numThreads - 1) / numThreads) :
    Fires B f t actives t (replicate actives.length none) := by
  have hnone : ∀ (i : ℕ) (x : WarpFire),
      (replicate actives.length none)[i]? ≠ some (some x) := by
    intro i x hx
    rw [getElem?_replicate] at hx
    split_ifs at hx
    simp at hx
  refine ⟨?_, ?_, ?_, ?_, ?_, fun x hx => absurd hx (hnone 0 x),
    fun i x hx => absurd hx (hnone _ x)⟩
  all_goals simp
  · omega
  · exact fun _ => hend

theorem Mid.fires (hT : numThreads = 2 ^ ntBits) (hB : B < 2 ^ (tidWidth + 1))
    (h : Mid B f s) (actives : List (ℕ → Bool))
    (hok : Along step (fun s active => s.overlaps active = false) s actives) :
    ∃ t outs, run step s actives = some (t, outs) ∧ Fires B f s actives t outs ∧
      (t.state = .idle ∨ ∃ f', Mid B f' t) := by
  have hwarps := lt_ceil_div (a := B) (r := f) numThreads_pos
  induction actives generalizing f s with
  | nil =>
    have hlt := hwarps.mpr h.more
    refine ⟨s, [], rfl, ⟨by simp, ?_, ?_, by simp, by simp, by simp, by simp⟩,
      .inr ⟨f, h⟩⟩
    · simp
      omega
    · intro hidle
      rw [h.state] at hidle
      exact FsmState.noConfusion hidle
  | cons active actives ih =>
    obtain ⟨hnow, hrest⟩ := hok
    have hstep := step_eq s active
    cases hfire : s.warpFire with
    | false =>
      obtain ⟨hmid, hpicks⟩ := h.quiet hT hfire active
      obtain ⟨t, outs, hrun, hfires, hend⟩ := ih hmid (hrest _ hstep) hwarps
      have hout : s.output = none := by simp [output, hfire]
      rw [hout] at hstep
      exact ⟨t, none :: outs, by rw [run_cons actives hstep, hrun]; rfl,
        hfires.quiet hpicks, hend⟩
    | true =>
      by_cases hmore : (f + 1) * numThreads < B
      · obtain ⟨hmid, hpicks⟩ := h.fire hfire hT hB hmore hnow
        obtain ⟨t, outs, hrun, hfires, hend⟩ :=
          ih hmid (hrest _ hstep) (lt_ceil_div numThreads_pos)
        exact ⟨t, s.output :: outs, by rw [run_cons actives hstep, hrun]; rfl,
          hfires.fire h hfire hpicks, hend⟩
      · obtain ⟨hidle, hquiet, hpicks⟩ := h.last hfire hT hB (Nat.le_of_not_lt hmore) active
        have hlt := hwarps.mpr h.more
        have hge := (lt_ceil_div (a := B) (r := f + 1) numThreads_pos).not.mpr hmore
        refine ⟨_, _, by rw [run_cons actives hstep, run_idle hidle hquiet]; rfl,
          (fires_idle _ actives (by omega)).fire h hfire hpicks, .inl hidle⟩

def Finishes (s : VxDispatch) : Prop :=
  ∃ actives, Along step (fun s active => s.overlaps active = false) s actives ∧
    ∃ t outs, run step s actives = some (t, outs) ∧ t.state = .idle

theorem finishes_idle (h : s.state = .idle) : Finishes s := ⟨[], trivial, s, [], rfl, h⟩

theorem Finishes.cons (h : Finishes (s.clock active none))
    (hok : s.overlaps active = false) : Finishes s := by
  obtain ⟨actives, halong, t, outs, hrun, hidle⟩ := h
  have hstep := step_eq s active
  refine ⟨active :: actives, ⟨hok, ?_⟩, t,
    s.output :: outs, by rw [run_cons actives hstep, hrun]; rfl, hidle⟩
  intro r hr
  cases hstep.symm.trans hr
  exact halong

theorem Mid.pick_next (hT : numThreads = 2 ^ ntBits) (h : Mid B f s)
    (hroom : B ≤ numWarps * numThreads) (hfire : s.warpFire = false) :
    Mid B f (s.clock (fun _ => false) none) ∧ (s.clock (fun _ => false) none).warpFire =
      true := by
  have hlt : f < numWarps := Nat.lt_of_mul_lt_mul_right (lt_of_lt_of_le h.more hroom)
  refine ⟨(h.quiet hT hfire _).1, ?_⟩
  have hready : (s.warpReady fun _ => false).isSome = true := by
    rw [warpReady, find?_isSome]
    by_contra hnone
    have hall : usedWarps s = Finset.range numWarps := by
      apply Finset.filter_true_of_mem
      intro w hw
      by_contra hfree
      exact hnone ⟨w, mem_range.mpr (Finset.mem_range.mp hw), by simp [hfree]⟩
    have hused := h.used
    rw [hall, Finset.card_range, hfire] at hused
    simp at hused
    omega
  obtain ⟨wid, hwid⟩ := Option.isSome_iff_exists.mp hready
  simp [clock, h.state, hfire, hwid, pick]

section
variable (hT : numThreads = 2 ^ ntBits) (hB : B < 2 ^ (tidWidth + 1))
  (hroom : B ≤ numWarps * numThreads) (h : Mid B f s)
include hT hB hroom h

theorem Mid.finishes_fire (hfire : s.warpFire = true) : Finishes s := by
  have hnone : ∀ s : VxDispatch, s.warpReady (fun _ => true) = none := by simp [warpReady]
  induction hk : B - f * numThreads using Nat.strong_induction_on generalizing f s with
  | _ k ih =>
    have hok : s.overlaps (fun _ => true) = false := by simp [overlaps, hnone]
    apply Finishes.cons _ hok
    by_cases hmore : (f + 1) * numThreads < B
    · obtain ⟨hmid, _⟩ := h.fire hfire hT hB hmore hok
      have hquiet : (s.clock (fun _ => true) none).warpFire = false := by
        simp [clock, h.state, hfire, fired, pick, hnone]
      obtain ⟨hmid', hfire'⟩ := hmid.pick_next hT hroom hquiet
      refine Finishes.cons (ih _ ?_ hmid' hfire' rfl) (by simp [overlaps, hquiet])
      have hpos := numThreads_pos
      rw [Nat.succ_mul] at hmore ⊢
      omega
    · exact finishes_idle (h.last hfire hT hB (Nat.le_of_not_lt hmore) _).1

theorem Mid.finishes : Finishes s := by
  cases hfire : s.warpFire with
  | true => exact h.finishes_fire hT hB hroom hfire
  | false =>
    obtain ⟨hmid, hfire'⟩ := h.pick_next hT hroom hfire
    exact (hmid.finishes_fire hT hB hroom hfire').cons (by simp [overlaps, hfire])

end

end Runs

/-- When no warp is picked for a partial last warp in the clock in which the one before it
fires, every warp of the CTA has its own mask. -/
theorem cta_fires_spaced [CoreConfig] (hT : numThreads = 2 ^ ntBits) {s : VxDispatch}
    (hidle : s.state = .idle) (hquiet : s.warpFire = false) {r : CtaReq} (hpos : 0 < r.blockSize)
    (hfit : r.blockSize < 2 ^ (tidWidth + 1)) (active : ℕ → Bool)
    (actives : List (ℕ → Bool)) (hok : Along step (fun s active => s.overlaps active = false)
      (s.clock active (some r)) actives) :
    ∃ t outs, run step (s.clock active (some r)) actives = some (t, outs) ∧
      (∀ (k : ℕ) (x : WarpFire), outs.reduceOption[k]? = some x →
        x.tmask = 2 ^ min numThreads (r.blockSize - k * numThreads) - 1) ∧
      outs.reduceOption.length ≤ (r.blockSize + numThreads - 1) / numThreads ∧
      (t.state = .idle →
        outs.reduceOption.length = (r.blockSize + numThreads - 1) / numThreads) ∧
      (outs.reduceOption.map WarpFire.wid).Nodup ∧
      (∀ (i : ℕ) (x : WarpFire), outs[i]? = some (some x) →
        ∃ j a, i = j + 1 ∧ actives[j]? = some a ∧ a x.wid = false) ∧
      (r.blockSize ≤ numWarps * numThreads → Finishes t) := by
  have hclock : s.clock active (some r) = s.accept r := by simp [clock, hidle]
  have hmid : Mid r.blockSize 0 (s.accept r) := by
    refine ⟨rfl, by omega, by simp [accept], fun hf => ?_, ?_⟩
    · simp [accept, hquiet] at hf
    · simp [usedWarps, accept, hquiet]
  rw [hclock] at hok ⊢
  obtain ⟨t, outs, hrun, hfires, hend⟩ := hmid.fires hT hfit actives hok
  refine ⟨t, outs, hrun, ?_, ?_, ?_, hfires.nodup, ?_, ?_⟩
  · intro k x hx
    have hmask := hfires.masks k x hx
    rwa [zero_add] at hmask
  · have hcount := hfires.count
    omega
  · intro ht
    have hcomplete := hfires.complete ht
    omega
  · intro i x hx
    cases i with
    | zero =>
      obtain ⟨hfire, _⟩ := hfires.head x hx
      simp [accept, hquiet] at hfire
    | succ j =>
      obtain ⟨a, ha, hfree⟩ := hfires.free j x hx
      exact ⟨j, a, rfl, ha, hfree⟩
  · intro hroom
    rcases hend with ht | ⟨f, hmid'⟩
    · exact finishes_idle ht
    · exact hmid'.finishes hT hfit hroom

def VxDispatch.reset : VxDispatch where
  state := .idle
  curCtxId := 0
  blockSize := 0
  blockDim := ⟨0, 0, 0⟩
  warpStep := ⟨0, 0, 0⟩
  threadIdx := ⟨0, 0, 0⟩
  ctaRank := 0
  warpFire := false
  warpId := 0
  warpTmask := 0
  warpSkipInit := false
  warpInitMask := fun _ => false
  dispatchedWarps := fun _ => false

def fiveThreads : CtaReq := ⟨1, 5, ⟨5, 1, 1⟩, ⟨4, 0, 0⟩⟩

theorem cta_fires_five : letI := smallCore
    ∃ t outs, run step (reset.clock (fun _ => false) (some fiveThreads))
      [fun _ => false, fun _ => true, fun _ => false, fun _ => false] = some (t, outs) ∧
    ∀ (k : ℕ) (x : WarpFire), outs.reduceOption[k]? = some x →
    x.tmask = 2 ^ min 4 (5 - k * 4) - 1 := by
  obtain ⟨t, outs, hrun, hmasks, _⟩ :=
    @cta_fires_spaced smallCore (by decide +kernel) reset rfl rfl
    fiveThreads (by decide) (by decide +kernel) (fun _ => false)
    [fun _ => false, fun _ => true, fun _ => false, fun _ => false] (by decide +kernel)
  exact ⟨t, outs, hrun, hmasks⟩

/-- With a free warp in every clock the second warp of the block gets the mask of a full warp. -/
theorem second_warp_full : letI := smallCore
    ((run step (reset.clock (fun _ => false) (some fiveThreads))
    [fun _ => false, fun _ => false, fun _ => false]).map fun r =>
    r.2.reduceOption.map WarpFire.tmask) =
      some [15, 15] ∧ 2 ^ min 4 (5 - 1 * 4) - 1 = 1 := by
  decide +kernel

end VortexGpu.Rtl

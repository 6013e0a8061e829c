import VortexGpu.CtaDispatcher

/-!
# The threads of a CTA

A launch gives the dispatcher the shape of a block and the index by which a warp moves on in it. The
dispatcher adds that index once for each warp, with one carry on each axis, and a lane divides what
is left when it reads its thread identifier.
-/

namespace VortexGpu.Simx
open Nat (div_div_eq_div_mul mod_eq_of_lt mod_le mod_lt succ_mul)
open Word MixedRadix CurrentCta List CoreConfig

def effBlock (ndim : ℕ) (b : Dim3) : Dim3 :=
  ⟨if 1 ≤ ndim then b.x else 1, if 2 ≤ ndim then b.y else 1, if 3 ≤ ndim then b.z else 1⟩

def launchBlockSize (ndim : ℕ) (e : Dim3) : ℕ := ([e.x, e.y, e.z].take ndim).foldl mul32 1

def warpStep (ndim tpw : ℕ) (e : Dim3) : Dim3 where
  x := if 1 ≤ ndim ∧ e.x ≠ 0 then tpw % e.x else 0
  y := if 2 ≤ ndim ∧ e.y ≠ 0 then tpw / e.x % e.y else 0
  z := if 3 ≤ ndim ∧ e.z ≠ 0 then tpw / mul32 e.x e.y % e.z else 0

/-- The descriptor of a launch of `ndim` dimensions with blocks of shape `b`. -/
structure Launched [CoreConfig] (ndim : ℕ) (b : Dim3) (d : Descriptor) : Prop where
  blockDim : d.blockDim = effBlock ndim b
  blockSize : d.blockSize = launchBlockSize ndim (effBlock ndim b)
  warpStep : d.warpStep = warpStep ndim numThreads (effBlock ndim b)

def WarpRecord.threadId (w : WarpRecord) (tid : ℕ) : Dim3 :=
  let b := w.cta.desc.blockDim
  let x := add32 w.threadIdx.x tid
  let y := add32 w.threadIdx.y (x / b.x)
  let z := add32 w.threadIdx.z (y / b.y)
  ⟨x % b.x, y % b.y, z⟩

inductive Emits [CoreConfig] : CtaDispatcher → List WarpRecord → Prop
  | stall {active d d' c ws} : d.current = some c → d.issue active c = (d', none) →
      Emits d' ws → Emits d ws
  | last {active d d' c wid w} : d.current = some c → d.issue active c = (d', some (wid, w)) →
      d'.current = none → Emits d [w]
  | warp {active d d' c c' wid w ws} : d.current = some c →
    d.issue active c = (d', some (wid, w)) →
      d'.current = some c' → Emits d' ws → Emits d (w :: ws)

/-- The coordinates of the `n`-th thread of a block, row by row. -/
def Dim3.coords (e : Dim3) (n : ℕ) : Dim3 := ⟨n % e.x, n / e.x % e.y, n / (e.x * e.y)⟩

def Dim3.volume (e : Dim3) : ℕ := e.x * e.y * e.z

/-- Lane `lane` of the `rank`-th warp is active and reads `t`. -/
def Lane (ws : List WarpRecord) (rank lane : ℕ) (t : Dim3) : Prop :=
  ∃ w, ws[rank]? = some w ∧ w.tmask[lane]? = some true ∧ w.threadId lane = t

/-- The warps of a block of shape `e`: as many as it takes, with one active lane for each
thread, numbered row by row. -/
structure Numbered [CoreConfig] (e : Dim3) (ws : List WarpRecord) : Prop where
  length : ws.length = (e.volume + numThreads - 1) / numThreads
  ranks : ∀ (rank : ℕ) (w : WarpRecord), ws[rank]? = some w → w.ctaRank = rank
  lanes : (ws.map fun w => w.tmask.count true).sum = e.volume
  rowMajor : ∀ rank lane t, Lane ws rank lane t → t = e.coords (rank * numThreads + lane)
  inside : ∀ rank lane t, Lane ws rank lane t → t.x < e.x ∧ t.y < e.y ∧ t.z < e.z
  bijective : ∀ t : Dim3, t.x < e.x → t.y < e.y → t.z < e.z → ∃! p : ℕ × ℕ,
    Lane ws p.1 p.2 t

structure Shaped [CoreConfig] (d : Descriptor) (e : Dim3) : Prop where
  pos : 0 < e.x ∧ 0 < e.y ∧ 0 < e.z
  small : e.volume < 2 ^ 32
  blockDim : d.blockDim = e
  blockSize : d.blockSize = e.volume
  warpStep : d.warpStep = ⟨numThreads % e.x, numThreads / e.x % e.y,
    numThreads / (e.x * e.y) % e.z⟩

section Threads
variable {ndim m n : ℕ} {b e : Dim3}

theorem coords_digits (hn : n < e.volume) :
    digits [e.x, e.y, e.z] n = [(e.coords n).x, (e.coords n).y, (e.coords n).z] := by
  have hz : n / (e.x * e.y) < e.z := Nat.div_lt_of_lt_mul hn
  simp only [digits, Dim3.coords, div_div_eq_div_mul, mod_eq_of_lt hz]

theorem coords_inside (hpos : 0 < e.x ∧ 0 < e.y ∧ 0 < e.z) (hn : n < e.volume) :
    (e.coords n).x < e.x ∧ (e.coords n).y < e.y ∧ (e.coords n).z < e.z :=
  ⟨mod_lt _ hpos.1, mod_lt _ hpos.2.1, Nat.div_lt_of_lt_mul hn⟩

theorem prod_dims (e : Dim3) : [e.x, e.y, e.z].prod = e.volume := by
  simp only [prod_cons, prod_nil, Dim3.volume]
  ring

theorem coords_injective (hm : m < e.volume) (hn : n < e.volume) (h : e.coords m = e.coords n) :
    m = n := by
  have hdigits : digits [e.x, e.y, e.z] m = digits [e.x, e.y, e.z] n := by
    rw [coords_digits hm, coords_digits hn, h]
  rw [← prod_dims] at hm hn
  rw [← value_digits hm, hdigits, value_digits hn]

theorem exists_coords {t : Dim3} (hx : t.x < e.x) (hy : t.y < e.y) (hz : t.z < e.z) :
    ∃ n < e.volume, e.coords n = t := by
  obtain ⟨hdigits, hlt⟩ := digits_value (.cons hx (.cons hy (.cons hz .nil)))
  rw [prod_dims] at hlt
  rw [coords_digits hlt] at hdigits
  simp only [cons.injEq, and_true] at hdigits
  obtain ⟨h₁, h₂, h₃⟩ := hdigits
  exact ⟨_, hlt, calc
    e.coords _ = ⟨(e.coords _).x, (e.coords _).y, (e.coords _).z⟩ := rfl
    _ = t := by rw [h₁, h₂, h₃]⟩

theorem threadId_coords {w : WarpRecord} {lane : ℕ} (hpos : 0 < e.x ∧ 0 < e.y ∧ 0 < e.z)
    (hdim : w.cta.desc.blockDim = e) (hidx : w.threadIdx = e.coords m) (hn : m + lane < 2 ^ 32) :
    w.threadId lane = e.coords (m + lane) := by
  obtain ⟨hx, hy, _⟩ := hpos
  have hX : add32 (m % e.x) lane = m % e.x + lane := by
    have := mod_le m e.x
    exact add32_of_lt (by omega)
  have hdivX := add_div_mod hx m lane
  have hdivY := add_div_mod hy (m / e.x) ((m % e.x + lane) / e.x)
  rw [← hdivX, div_div_eq_div_mul, div_div_eq_div_mul] at hdivY
  have hleX : (m + lane) / e.x ≤ m + lane := Nat.div_le_self _ _
  have hleY : (m + lane) / (e.x * e.y) ≤ m + lane := Nat.div_le_self _ _
  have hY : add32 (m / e.x % e.y) ((m % e.x + lane) / e.x) =
      m / e.x % e.y + (m % e.x + lane) / e.x := by
    have := mod_le (m / e.x) e.y
    exact add32_of_lt (by omega)
  have hZ : add32 (m / (e.x * e.y)) ((m / e.x % e.y + (m % e.x + lane) / e.x) / e.y) =
      (m + lane) / (e.x * e.y) := by
    rw [hdivY]
    exact add32_of_lt (by omega)
  simp only [WarpRecord.threadId, hdim, hidx, Dim3.coords, hX, hY, hZ, Nat.mod_add_mod, ← hdivX]

theorem count_lt_range (a n : ℕ) :
    ((range n).map fun t => decide (t < a)).count true = min a n := by
  induction n with
  | zero => simp
  | succ n ih =>
    rw [range_succ, map_append, count_append, ih]
    by_cases h : n < a
    all_goals
      simp [h]
      omega

section Shape
variable (hn : 1 ≤ ndim ∧ ndim ≤ 3)
  (hpos : 0 < (effBlock ndim b).x ∧ 0 < (effBlock ndim b).y ∧ 0 < (effBlock ndim b).z)
  (hsmall : (effBlock ndim b).volume < 2 ^ 32)
include hn hpos hsmall

theorem launchBlockSize_eq : launchBlockSize ndim (effBlock ndim b) = (effBlock ndim b).volume := by
  have hxy : (effBlock ndim b).x * (effBlock ndim b).y < 2 ^ 32 :=
    lt_of_le_of_lt (Nat.le_mul_of_pos_right _ hpos.2.2) hsmall
  obtain rfl | rfl | rfl : ndim = 1 ∨ ndim = 2 ∨ ndim = 3 := by omega
  all_goals
    simp [effBlock, Dim3.volume] at hsmall hxy
    simp [launchBlockSize, effBlock, Dim3.volume, mul32, mod_eq_of_lt, hsmall, hxy]

theorem warpStep_eq {tpw : ℕ} :
    warpStep ndim tpw (effBlock ndim b) = ⟨tpw % (effBlock ndim b).x,
      tpw / (effBlock ndim b).x % (effBlock ndim b).y,
      tpw / ((effBlock ndim b).x * (effBlock ndim b).y) % (effBlock ndim b).z⟩ := by
  obtain ⟨hx, hy, hz⟩ := hpos
  have hxy : (effBlock ndim b).x * (effBlock ndim b).y < 2 ^ 32 :=
    lt_of_le_of_lt (Nat.le_mul_of_pos_right _ hz) hsmall
  have hy₁ : ¬2 ≤ ndim → (effBlock ndim b).y = 1 := fun h => if_neg h
  have hz₁ : ¬3 ≤ ndim → (effBlock ndim b).z = 1 := fun h => if_neg h
  simp only [warpStep, mul32_of_lt hxy, ne_eq, hx.ne', hy.ne', hz.ne', hn.1,
    not_false_eq_true, and_self, and_true, if_true]
  -- an axis that is not in use has one thread, so its step is the remainder by one
  congr 1
  · by_cases h : 2 ≤ ndim
    · rw [if_pos h]
    · rw [if_neg h, hy₁ h, Nat.mod_one]
  · by_cases h : 3 ≤ ndim
    · rw [if_pos h]
    · rw [if_neg h, hz₁ h, Nat.mod_one]

theorem Launched.shaped [CoreConfig] {d : Descriptor} (h : Launched ndim b d) :
    Shaped d (effBlock ndim b) :=
  ⟨hpos, hsmall, h.blockDim, h.blockSize.trans (launchBlockSize_eq hn hpos hsmall),
    h.warpStep.trans (warpStep_eq hn hpos hsmall)⟩

end Shape

variable [CoreConfig]

theorem nextIdx_coords {c : CurrentCta} (h : Shaped c.cta.desc e)
    (hidx : c.threadIdx = e.coords m) (hm : m + numThreads < e.volume) :
    c.nextIdx = e.coords (m + numThreads) := by
  obtain ⟨hx, hy, _⟩ := h.pos
  have hsmall := h.small
  have hdim := h.blockDim
  have hstep := h.warpStep
  generalize numThreads = tpw at *
  -- the carry out of each axis is the carry of the sum of the two positions
  obtain ⟨hmodX, hdivX⟩ := add_carry hx m tpw (Nat.zero_le 1)
  rw [Nat.add_zero, Nat.add_zero] at hmodX hdivX
  have hcarry : (if e.x ≤ m % e.x + tpw % e.x then 1 else 0) ≤ 1 := by split_ifs <;> omega
  obtain ⟨hmodY, hdivY⟩ := add_carry hy (m / e.x) (tpw / e.x) hcarry
  rw [← hdivX] at hmodY hdivY
  rw [div_div_eq_div_mul, div_div_eq_div_mul, div_div_eq_div_mul] at hdivY
  have hnextX : add32 (m % e.x) (tpw % e.x) = m % e.x + tpw % e.x := by
    have hm' := mod_le m e.x
    have ht' := mod_le tpw e.x
    exact add32_of_lt (by omega)
  have hleY : m / e.x + tpw / e.x + (if e.x ≤ m % e.x + tpw % e.x then 1 else 0) < 2 ^ 32 := by
    rw [← hdivX]
    exact lt_of_le_of_lt (Nat.div_le_self _ _) (by omega)
  have hnextY : add32 (add32 (m / e.x % e.y) (tpw / e.x % e.y))
      (if e.x ≤ m % e.x + tpw % e.x then 1 else 0) =
      m / e.x % e.y + tpw / e.x % e.y + if e.x ≤ m % e.x + tpw % e.x then 1 else 0 := by
    have hm' := mod_le (m / e.x) e.y
    have ht' := mod_le (tpw / e.x) e.y
    exact add32_add32_of_lt (by omega)
  have hstepZ : tpw / (e.x * e.y) % e.z = tpw / (e.x * e.y) :=
    mod_eq_of_lt (Nat.div_lt_of_lt_mul (by unfold Dim3.volume at hm; omega))
  have hleZ : (m + tpw) / (e.x * e.y) < 2 ^ 32 := lt_of_le_of_lt (Nat.div_le_self _ _) (by omega)
  rw [hdivY] at hleZ
  simp only [nextIdx, hdim, hstep, hidx, Dim3.coords, hnextX, hnextY, hstepZ, hmodX, hmodY, hdivY,
    add32_add32_of_lt hleZ]

def CurrentCta.atRank (cta : KmuReq) (slot r : ℕ) : CurrentCta :=
  { admitted cta slot with
    rank := r
    blockSizeRem := cta.desc.blockSize - r * numThreads
    threadIdx := cta.desc.blockDim.coords (r * numThreads) }

theorem atRank_zero (cta : KmuReq) (slot : ℕ) : atRank cta slot 0 = admitted cta slot := by
  simp [atRank, admitted, Dim3.coords]

def numWarpsOf (e : Dim3) : ℕ := (e.volume + numThreads - 1) / numThreads

theorem lt_numWarpsOf {r : ℕ} : r < numWarpsOf e ↔ r * numThreads < e.volume :=
  lt_ceil_div numThreads_pos

section Ranks
variable {cta : KmuReq} {e : Dim3} {slot : ℕ}

theorem advance_atRank {r : ℕ} (h : Shaped cta.desc e) (hr : r + 1 < numWarpsOf e)
    (hsize : ¬(admitted cta slot).ctaSize ≤ r + 1) :
    (atRank cta slot r).advance = some (atRank cta slot (r + 1)) := by
  have hlt := lt_numWarpsOf.mp hr
  have hsmall := h.small
  have hpos := numThreads_pos
  rw [succ_mul] at hlt
  have hle : r ≤ r * numThreads := Nat.le_mul_of_pos_right r hpos
  have hrank : add32 r 1 = r + 1 := add32_of_lt (by omega)
  have hactive : (atRank cta slot r).active = numThreads := by
    exact if_pos (by simp only [atRank, h.blockSize]; omega)
  have hidx : (atRank cta slot r).nextIdx = e.coords (r * numThreads + numThreads) :=
    nextIdx_coords h (by simp only [atRank, h.blockDim]) hlt
  rw [advance, hactive, hidx]
  simp only [atRank, hrank, if_neg hsize, h.blockDim, succ_mul, Nat.sub_sub]

variable {d : CtaDispatcher}

theorem issue_some {active : ℕ → Bool} {d' : CtaDispatcher} {c : CurrentCta} {wid : ℕ}
    {w : WarpRecord} (h : d.issue active c = (d', some (wid, w))) :
    d'.current = c.advance ∧ ∃ init, w = c.record init := by
  unfold CtaDispatcher.issue at h
  split at h
  · simp at h
  · simp only [Prod.mk.injEq, Option.some.injEq] at h
    obtain ⟨rfl, _, rfl⟩ := h
    exact ⟨rfl, _, rfl⟩

theorem issue_none {active : ℕ → Bool} {d' : CtaDispatcher} {c : CurrentCta}
    (h : d.issue active c = (d', none)) : d' = d := by
  unfold CtaDispatcher.issue at h
  split at h
  · exact (congrArg Prod.fst h).symm
  · simp at h

theorem emits_atRank {ws : List WarpRecord} {n : ℕ} (hem : Emits d ws)
    (hmore : ∀ r, r + 1 < n → (atRank cta slot r).advance = some (atRank cta slot (r + 1)))
    (hlast : (atRank cta slot (n - 1)).advance = none) {r : ℕ} (hr : r < n)
    (hc : d.current = some (atRank cta slot r)) :
    ws.length = n - r ∧ ∀ (i : ℕ) (w : WarpRecord), ws[i]? = some w →
      ∃ init, w = (atRank cta slot (r + i)).record init := by
  induction hem generalizing r with
  | stall _ hissue _ ih =>
    obtain rfl := issue_none hissue
    exact ih hr hc
  | last hcur hissue hend =>
    cases hcur.symm.trans hc
    obtain ⟨hadv, init, rfl⟩ := issue_some hissue
    have hn : ¬r + 1 < n := by
      intro hlt
      rw [hadv, hmore r hlt] at hend
      exact Option.some_ne_none _ hend
    refine ⟨by simp; omega, ?_⟩
    intro i w hw
    cases i with
    | zero => exact ⟨init, (Option.some.inj hw).symm⟩
    | succ i => simp at hw
  | warp hcur hissue hnext _ ih =>
    cases hcur.symm.trans hc
    obtain ⟨hadv, init, rfl⟩ := issue_some hissue
    have hn : r + 1 < n := by
      by_contra hge
      obtain rfl : r = n - 1 := by omega
      rw [hadv, hlast] at hnext
      exact Option.some_ne_none _ hnext.symm
    obtain ⟨hlen, hrest⟩ := ih hn (hadv.trans (hmore r hn))
    refine ⟨by rw [length_cons, hlen]; omega, ?_⟩
    intro i w hw
    cases i with
    | zero => exact ⟨init, (Option.some.inj hw).symm⟩
    | succ i =>
      obtain ⟨init', hw'⟩ := hrest i w hw
      exact ⟨init', by rw [hw', add_assoc, add_comm 1 i]⟩

end Ranks

section Numbering
variable {cta : KmuReq} {e : Dim3} {slot : ℕ}

theorem active_atRank {r lane : ℕ} (h : Shaped cta.desc e) :
    lane < (atRank cta slot r).active ↔
      lane < numThreads ∧ r * numThreads + lane < e.volume := by
  simp only [active, atRank, h.blockSize]
  split_ifs <;> omega

theorem tmask_record {c : CurrentCta} {init : Bool} {lane : ℕ} :
    (c.record init).tmask[lane]? = some true ↔ lane < c.active := by
  have hle : c.active ≤ numThreads := by
    unfold active
    split_ifs <;> omega
  simp only [record, getElem?_map, Option.map_eq_some_iff, decide_eq_true_eq,
    getElem?_eq_some_iff, length_range, getElem_range]
  constructor
  · rintro ⟨_, ⟨_, rfl⟩, hlt⟩
    exact hlt
  · intro hlt
    exact ⟨lane, ⟨by omega, rfl⟩, hlt⟩

theorem count_record (c : CurrentCta) (init : Bool) :
    (c.record init).tmask.count true = c.active := by
  rw [record, count_lt_range]
  unfold active
  split_ifs <;> omega

theorem sum_active (h : Shaped cta.desc e) (n : ℕ) :
    ((range n).map fun r => (atRank cta slot r).active).sum =
      min (n * numThreads) e.volume := by
  induction n with
  | zero => simp
  | succ n ih =>
    rw [range_succ, map_append, sum_append, ih, succ_mul]
    simp only [active, atRank, h.blockSize, map_cons, map_nil, sum_cons, sum_nil]
    split_ifs <;> omega

theorem numbered_of_ranks {ws : List WarpRecord} (h : Shaped cta.desc e)
    (hlen : ws.length = numWarpsOf e) (hws : ∀ (r : ℕ) (w : WarpRecord), ws[r]? = some w →
      ∃ init, w = (atRank cta slot r).record init) : Numbered e ws := by
  have hpos := numThreads_pos
  have hsmall := h.small
  -- an active lane has a number below the volume and reads its position
  have hlane : ∀ rank lane t, Lane ws rank lane t → lane < numThreads ∧
      rank * numThreads + lane < e.volume ∧ t = e.coords (rank * numThreads + lane) := by
    rintro rank lane t ⟨w, hw, hmask, rfl⟩
    obtain ⟨init, rfl⟩ := hws rank w hw
    obtain ⟨hlt, hvol⟩ := (active_atRank h).mp (tmask_record.mp hmask)
    exact ⟨hlt, hvol, threadId_coords h.pos h.blockDim (by simp only [record, atRank, h.blockDim])
      (by omega)⟩
  refine ⟨hlen, ?_, ?_, fun rank lane t ht => (hlane rank lane t ht).2.2, ?_, ?_⟩
  · intro rank w hw
    obtain ⟨init, rfl⟩ := hws rank w hw
    rfl
  · have hmap : ws.map (fun w => w.tmask.count true) =
        (range (numWarpsOf e)).map fun r => (atRank cta slot r).active := by
      apply ext_getElem
      · simp [hlen]
      · intro r hr hr'
        rw [length_map] at hr
        obtain ⟨init, hw⟩ := hws r _ (getElem?_eq_getElem hr)
        simp only [getElem_map, getElem_range, hw, count_record]
    have hend : ¬numWarpsOf e * numThreads < e.volume :=
      fun hlt => lt_irrefl _ (lt_numWarpsOf.mpr hlt)
    rw [hmap, sum_active h]
    omega
  · intro rank lane t ht
    obtain ⟨_, hvol, rfl⟩ := hlane rank lane t ht
    exact coords_inside h.pos hvol
  · intro t hx hy hz
    obtain ⟨n, hn, rfl⟩ := exists_coords hx hy hz
    have hsplit : n / numThreads * numThreads + n % numThreads = n := Nat.div_add_mod' n _
    have hmod := mod_lt n hpos
    refine ⟨(n / numThreads, n % numThreads), ?_, ?_⟩
    · have hrank : n / numThreads < ws.length := by
        rw [hlen, lt_numWarpsOf]
        omega
      obtain ⟨init, hw⟩ := hws _ _ (getElem?_eq_getElem hrank)
      refine ⟨_, getElem?_eq_getElem hrank, ?_, ?_⟩
      · rw [hw, tmask_record, active_atRank h]
        omega
      · rw [hw, threadId_coords h.pos h.blockDim (m := n / numThreads * numThreads)
          (by simp only [record, atRank, h.blockDim]) (by omega), hsplit]
    · rintro ⟨rank, lane⟩ hp
      obtain ⟨hlt, hvol, heq⟩ := hlane rank lane _ hp
      have hnum := coords_injective hn hvol heq
      rw [hnum, mul_comm rank]
      obtain ⟨hm, hd⟩ := block_div_mod (q := rank) hlt
      rw [hm, hd]

theorem exists_emits {d : CtaDispatcher} {n r : ℕ} (hmore : ∀ r, r + 1 < n →
      (atRank cta slot r).advance = some (atRank cta slot (r + 1)))
    (hlast : (atRank cta slot (n - 1)).advance = none) (hr : r < n)
    (hc : d.current = some (atRank cta slot r)) : ∃ ws, Emits d ws := by
  have hissue : ∀ (d : CtaDispatcher) (c : CurrentCta), ∃ d' w,
      d.issue (fun _ => false) c = (d', some w) ∧ d'.current = c.advance := by
    intro d c
    unfold CtaDispatcher.issue
    split
    · rename_i hnone
      have hfree := find?_eq_none.mp hnone 0 (mem_range.mpr numWarps_pos)
      exact absurd rfl hfree
    · exact ⟨_, _, rfl, rfl⟩
  induction hk : n - r generalizing r d with
  | zero => omega
  | succ k ih =>
    obtain ⟨d', w, hd', hcur⟩ := hissue d (atRank cta slot r)
    by_cases hn : r + 1 < n
    · rw [hmore r hn] at hcur
      obtain ⟨ws, hws⟩ := ih hn hcur (by omega)
      exact ⟨_, .warp hc hd' hcur hws⟩
    · obtain rfl : r = n - 1 := by omega
      exact ⟨_, .last hc hd' (hcur.trans hlast)⟩

theorem ctaSize_of_le (h : Shaped cta.desc e) (hfit : e.volume + numThreads ≤ 2 ^ 32) :
    (admitted cta slot).ctaSize = numWarpsOf e := by
  simp only [admitted, h.blockSize, numWarpsOf]
  rw [mod_eq_of_lt (by omega)]

theorem ctaSize_of_gt (h : Shaped cta.desc e) (hfit : 2 ^ 32 < e.volume + numThreads) :
    (admitted cta slot).ctaSize = 0 := by
  have hsmall := h.small
  simp only [admitted, h.blockSize]
  exact Nat.div_eq_of_lt (by omega)

theorem advance_last {n : ℕ} (hn : 0 < n) (hlt : n < 2 ^ 32)
    (hsize : (admitted cta slot).ctaSize ≤ n) : (atRank cta slot (n - 1)).advance = none := by
  have hrank : add32 (n - 1) 1 = n := by
    rw [add32_of_lt (by omega)]
    omega
  exact if_pos (by simpa only [atRank, hrank] using hsize)

end Numbering

/-- The warps of a CTA number its threads row by row exactly when the number of threads can be
rounded up to whole warps in 32 bits, or one warp is enough. -/
theorem threads_numbered_iff {ndim slot : ℕ} {b : Dim3} {cta : KmuReq} {d : CtaDispatcher}
    (hn : 1 ≤ ndim ∧ ndim ≤ 3)
    (hpos : 0 < (effBlock ndim b).x ∧ 0 < (effBlock ndim b).y ∧ 0 < (effBlock ndim b).z)
    (hsmall : (effBlock ndim b).volume < 2 ^ 32) (hl : Launched ndim b cta.desc)
    (hd : d.current = some (admitted cta slot)) : (∃ ws, Emits d ws) ∧
      ((∀ ws, Emits d ws → Numbered (effBlock ndim b) ws) ↔
        (effBlock ndim b).volume + numThreads ≤ 2 ^ 32 ∨
        (effBlock ndim b).volume ≤ numThreads) := by
  have h := hl.shaped hn hpos hsmall
  generalize effBlock ndim b = e at *
  have hvol : 0 < e.volume := mul_pos (mul_pos hpos.1 hpos.2.1) hpos.2.2
  rw [← atRank_zero] at hd
  have hwarps : 0 < numWarpsOf e := lt_numWarpsOf.mpr (by omega)
  have hwarps_lt : numWarpsOf e < 2 ^ 32 := by
    have hlast := lt_numWarpsOf.mp (Nat.sub_lt hwarps Nat.one_pos)
    have hle := Nat.le_mul_of_pos_right (numWarpsOf e - 1) numThreads_pos
    omega
  by_cases hfit : e.volume + numThreads ≤ 2 ^ 32 ∨ e.volume ≤ numThreads
  · have hmore : ∀ r, r + 1 < numWarpsOf e → (atRank cta slot r).advance =
        some (atRank cta slot (r + 1)) := by
      intro r hr
      have hlt := lt_numWarpsOf.mp hr
      rw [succ_mul] at hlt
      refine advance_atRank h hr ?_
      rw [ctaSize_of_le h (by omega)]
      omega
    have hsize : (admitted cta slot).ctaSize ≤ numWarpsOf e := by
      by_cases hle : e.volume + numThreads ≤ 2 ^ 32
      · rw [ctaSize_of_le h hle]
      · rw [ctaSize_of_gt h (by omega)]
        omega
    have hlast := advance_last hwarps hwarps_lt hsize
    refine ⟨exists_emits hmore hlast hwarps hd, iff_of_true ?_ hfit⟩
    intro ws hem
    obtain ⟨hlen, hws⟩ := emits_atRank hem hmore hlast hwarps hd
    have hranks : ∀ (r : ℕ) (w : WarpRecord), ws[r]? = some w →
        ∃ init, w = (atRank cta slot r).record init := by
      intro r w hw
      simpa using hws r w hw
    exact numbered_of_ranks h hlen hranks
  · have hmore : ∀ r, r + 1 < 1 → (atRank cta slot r).advance =
        some (atRank cta slot (r + 1)) := fun r hr => absurd hr (by omega)
    have hsize : (admitted cta slot).ctaSize ≤ 1 := by
      rw [ctaSize_of_gt h (by omega)]
      omega
    have hlast := advance_last Nat.one_pos (by omega) hsize
    obtain ⟨ws, hws⟩ := exists_emits hmore hlast (by omega) hd
    refine ⟨⟨ws, hws⟩, iff_of_false ?_ hfit⟩
    intro hall
    have hlen := (emits_atRank hws hmore hlast (by omega) hd).1
    have htwo : 1 < numWarpsOf e := lt_numWarpsOf.mpr (by omega)
    have hnum : ws.length = numWarpsOf e := (hall ws hws).length
    omega

end Threads

/-- A CTA of a launch with blocks of `n` threads in a row, and the dispatcher that has taken it. -/
def rowRequest (n : ℕ) : KmuReq where
  desc := { sampleDescriptor n with
    blockDim := ⟨n, 1, 1⟩, warpStep := warpStep 1 4 ⟨n, 1, 1⟩ }
  ctaId := 0
  blockIdx := ⟨0, 0, 0⟩
  isFirstOfCluster := true

def rowDispatcher (n : ℕ) : CtaDispatcher :=
  letI := smallCore
  { CtaDispatcher.reset with current := some (admitted (rowRequest n) 0) }

theorem threads_numbered_row : letI := smallCore
    (∃ ws, Emits (rowDispatcher 10) ws) ∧
      ∀ ws, Emits (rowDispatcher 10) ws → Numbered ⟨10, 1, 1⟩ ws := by
  let := smallCore
  have hl : Launched 1 ⟨10, 1, 1⟩ (rowRequest 10).desc := ⟨rfl, rfl, rfl⟩
  have hd : (rowDispatcher 10).current = some (admitted (rowRequest 10) 0) := rfl
  obtain ⟨hex, hiff⟩ := threads_numbered_iff (by decide) (by decide) (by decide) hl hd
  exact ⟨hex, hiff.mpr (.inl (by decide))⟩

/-- A block of `2 ^ 32 - 1` threads gets one warp. -/
theorem large_block_one_warp : letI := smallCore
    ∃ ws, Emits (rowDispatcher (2 ^ 32 - 1)) ws ∧ ws.length = 1 ∧
      numWarpsOf ⟨2 ^ 32 - 1, 1, 1⟩ = 2 ^ 30 := by
  have hissue : @CtaDispatcher.issue smallCore (fun _ => false) (rowDispatcher (2 ^ 32 - 1))
      (@admitted smallCore (rowRequest (2 ^ 32 - 1)) 0) = (_, some (_, _)) := rfl
  exact ⟨_, @Emits.last smallCore _ _ _ _ _ _ rfl hissue rfl, rfl, by decide⟩

end VortexGpu.Simx

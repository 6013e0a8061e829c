import VortexGpu.Kmu

/-!
# The CTA dispatcher of a core

Each core has a dispatcher that takes CTAs from the kernel management unit, gives each one a
slot of local memory and hands out its warps one by one. A call that would read a slot outside
the table, or that trips the assertion on a retired warp, has no result.
-/

namespace VortexGpu.Simx
open Word Function

class CoreConfig where
  numWarps : ℕ
  numThreads : ℕ
  lmemLogSize : ℕ
  lmemBase : ℕ
  numWarps_pos : 0 < numWarps
  numWarps_lt : numWarps < 2 ^ 31
  numThreads_pos : 0 < numThreads
  numThreads_lt : numThreads < 2 ^ 32
  lmemLogSize_lt : lmemLogSize < 32

structure WarpRecord where
  doInit : Bool
  cta : KmuReq
  ctaId : ℕ
  ctaRank : ℕ
  ctaSize : ℕ
  threadIdx : Dim3
  lmemAddr : ℕ
  clusterSize : ℕ
  tmask : List Bool
deriving DecidableEq, Repr

structure CurrentCta where
  cta : KmuReq
  slot : ℕ
  ctaSize : ℕ
  rank : ℕ
  blockSizeRem : ℕ
  threadIdx : Dim3
  lmemAddr : ℕ
deriving DecidableEq, Repr

structure CtaDispatcher where
  slotRemWarps : ℕ → ℕ
  widToSlot : ℕ → ℕ
  tailSlot : ℕ
  current : Option CurrentCta
  pending : Option KmuReq
  curKernelPc : ℕ
  warpInitMask : ℕ → Bool

def KmuReq.clusterProduct (r : KmuReq) : ℕ :=
  mul32 (mul32 r.desc.clusterDim.x r.desc.clusterDim.y) r.desc.clusterDim.z

theorem KmuReq.clusterProduct_eq {r : KmuReq} (hz : 0 < r.desc.clusterDim.z)
    (h : r.desc.clusterSize < 2 ^ 32) : r.clusterProduct = r.desc.clusterSize := by
  have hxy : r.desc.clusterDim.x * r.desc.clusterDim.y < 2 ^ 32 :=
    lt_of_le_of_lt (Nat.le_mul_of_pos_right _ hz) h
  rw [KmuReq.clusterProduct, mul32_of_lt hxy]
  exact mul32_of_lt h

def Descriptor.stride (d : Descriptor) : ℕ := add32 d.lmemSize 63 &&& (2 ^ 32 - 2 ^ 6)
def KmuReq.stride (r : KmuReq) : ℕ := r.desc.stride

section
open CoreConfig
variable [CoreConfig]

def lmemCapacity : ℕ := 2 ^ lmemLogSize

def usableSlots (stride : ℕ) : ℕ :=
  if stride = 0 then numWarps
  else
    let fit := min (lmemCapacity / stride) numWarps
    if fit = 0 then 1 else fit

namespace CurrentCta

def admitted (cta : KmuReq) (slot : ℕ) : CurrentCta where
  cta := cta
  slot := slot
  ctaSize := (cta.desc.blockSize + numThreads - 1) % 2 ^ 32 / numThreads
  rank := 0
  blockSizeRem := cta.desc.blockSize
  threadIdx := ⟨0, 0, 0⟩
  lmemAddr := add64 lmemBase (slot * cta.stride)

def active (c : CurrentCta) : ℕ :=
  if numThreads ≤ c.blockSizeRem then numThreads else c.blockSizeRem

def nextIdx (c : CurrentCta) : Dim3 :=
  let d := c.cta.desc
  let nextX := add32 c.threadIdx.x d.warpStep.x
  let wrapX := d.blockDim.x ≤ nextX
  let nextY := add32 (add32 c.threadIdx.y d.warpStep.y) (if wrapX then 1 else 0)
  let wrapY := d.blockDim.y ≤ nextY
  { x := if wrapX then nextX - d.blockDim.x else nextX
    y := if wrapY then nextY - d.blockDim.y else nextY
    z := add32 (add32 c.threadIdx.z d.warpStep.z) (if wrapY then 1 else 0) }

def record (c : CurrentCta) (doInit : Bool) : WarpRecord where
  doInit := doInit
  cta := c.cta
  ctaId := c.slot
  ctaRank := c.rank
  ctaSize := c.ctaSize
  threadIdx := c.threadIdx
  lmemAddr := c.lmemAddr
  clusterSize := c.cta.clusterProduct
  tmask := (List.range numThreads).map fun t => decide (t < c.active)

def advance (c : CurrentCta) : Option CurrentCta :=
  if c.ctaSize ≤ add32 c.rank 1 then none
  else some { c with threadIdx := c.nextIdx, blockSizeRem := c.blockSizeRem - c.active,
                     rank := add32 c.rank 1 }

end CurrentCta

namespace CtaDispatcher

def reset : CtaDispatcher where
  slotRemWarps := fun _ => 0
  widToSlot := fun _ => numWarps
  tailSlot := 0
  current := none
  pending := none
  curKernelPc := 0
  warpInitMask := fun _ => false

/-- Whether `k` slots from `base` on are free, read in order. -/
def windowFree (slots : ℕ → ℕ) (base : ℕ) : ℕ → Option Bool
  | 0 => some true
  | k + 1 =>
    if numWarps ≤ base then none
    else if slots base ≠ 0 then some false
    else windowFree slots (base + 1) k

def window (r : KmuReq) (tail maxSlots : ℕ) : ℕ × ℕ :=
  if r.isFirstOfCluster then
    let k := if r.clusterProduct = 0 then 1 else r.clusterProduct
    (if maxSlots < add32 tail k then 0 else tail, min k maxSlots)
  else (tail, 1)

def place (d : CtaDispatcher) (r : KmuReq) (base : ℕ) : CtaDispatcher :=
  let c := CurrentCta.admitted r base
  { d with
    warpInitMask := if r.desc.PC = d.curKernelPc then d.warpInitMask else fun _ => false
    curKernelPc := r.desc.PC
    pending := none
    current := some c
    slotRemWarps := update d.slotRemWarps base c.ctaSize
    tailSlot := (base + 1) % usableSlots r.stride }

def admitCta (d : CtaDispatcher) (r : KmuReq) : Option CtaDispatcher := do
  let maxSlots := usableSlots r.stride
  let tail := if maxSlots ≤ d.tailSlot then 0 else d.tailSlot
  let (base, k) := window r tail maxSlots
  if ← windowFree d.slotRemWarps base k then some (d.place r base)
  else some { d with tailSlot := tail, pending := some r }

def issue (active : ℕ → Bool) (d : CtaDispatcher) (c : CurrentCta) :
    CtaDispatcher × Option (ℕ × WarpRecord) :=
  match (List.range numWarps).find? fun wid => !active wid with
  | none => (d, none)
  | some wid =>
    ({ d with current := c.advance
              warpInitMask := update d.warpInitMask wid true
              widToSlot := update d.widToSlot wid c.slot },
      some (wid, c.record (!d.warpInitMask wid)))

def load (d : CtaDispatcher) (kmu : Kmu) : Option (CtaDispatcher × Kmu) :=
  match d.current with
  | some _ => some (d, kmu)
  | none => match d.pending with
    | some r => (d.admitCta r).map fun d => (d, kmu)
    | none => match kmu.step with
      | none => some (d, kmu)
      | some (kmu, r) => (d.admitCta r).map fun d => (d, kmu)

def step (active : ℕ → Bool) (d : CtaDispatcher) (kmu : Kmu) :
    Option (CtaDispatcher × Kmu × Option (ℕ × WarpRecord)) := do
  let (d, kmu) ← d.load kmu
  match d.current with
  | none => some (d, kmu, none)
  | some c => some ((d.issue active c).1, kmu, (d.issue active c).2)

def warpDone (wid : ℕ) (d : CtaDispatcher) : Option CtaDispatcher :=
  let slot := d.widToSlot wid
  if numWarps ≤ slot then some d
  else if d.slotRemWarps slot = 0 then none
  else some { d with widToSlot := update d.widToSlot wid numWarps
                     slotRemWarps := update d.slotRemWarps slot (d.slotRemWarps slot - 1) }

end CtaDispatcher

end

abbrev smallCore : CoreConfig where
  numWarps := 4
  numThreads := 4
  lmemLogSize := 14
  lmemBase := 0xFFFF0000
  numWarps_pos := Nat.succ_pos 3
  numWarps_lt := by decide
  numThreads_pos := Nat.succ_pos 3
  numThreads_lt := by decide
  lmemLogSize_lt := by decide

end VortexGpu.Simx

import VortexGpu.CtaClusters
import Mathlib.Data.Finset.Card

/-!
# Slots of local memory

The CTAs of one kernel on one core, with the calls of its dispatcher in any order, any mask of
active warps and any use of the kernel management unit by the other cores. `ctas` and `warpOf`
record beside the dispatcher which CTA is where.
-/

namespace VortexGpu.Simx
open Word Runs
open Function (update update_apply update_of_ne update_self)
open CtaDispatcher Nat Finset CoreConfig

structure ResidentCta where
  slot : ℕ
  lmemAddr : ℕ
  issued : ℕ
  retired : ℕ
deriving DecidableEq, Repr

structure SlotTable where
  dispatcher : CtaDispatcher
  count : ℕ
  ctas : ℕ → ResidentCta
  warpOf : ℕ → Option ℕ

/-- The kernel management unit while it walks the grid of a kernel. -/
structure KernelKmu (d : Descriptor) where
  kmu : Kmu
  desc : kmu.desc = d
  block : kmu.running = true → 0 < d.blockSize

namespace KernelKmu
variable {d : Descriptor}

theorem start_block (k : Kmu) : k.start.running = true → 0 < k.desc.blockSize := by
  simp only [Kmu.start]
  split_ifs with hok
  · exact fun _ => hok.1
  · exact False.elim

def start (k : Kmu) : KernelKmu k.desc := ⟨k.start, start_desc k, start_block k⟩

def next (k : KernelKmu d) : KernelKmu d :=
  if h : k.kmu.running then
    { kmu := { k.kmu with ctaId := add32 k.kmu.ctaId 1 }.advance
      desc := (advance_desc { k.kmu with ctaId := add32 k.kmu.ctaId 1 }).trans k.desc
      block := fun _ => k.block h }
  else k

end KernelKmu

inductive SlotCall (d : Descriptor) where
  | step (active : ℕ → Bool) (kmu : KernelKmu d)
  | warpDone (wid : ℕ)

def Descriptor.warps [CoreConfig] (d : Descriptor) : ℕ :=
  (d.blockSize + numThreads - 1) / numThreads

namespace SlotTable

section
variable {s : SlotTable} {i : ℕ}

def withCta (s : SlotTable) (cta : ResidentCta) (disp : CtaDispatcher) : SlotTable :=
  { s with dispatcher := disp, count := s.count + 1, ctas := update s.ctas s.count cta }

theorem withCta_new (cta : ResidentCta) (disp : CtaDispatcher) :
    (s.withCta cta disp).ctas s.count = cta :=
  update_self ..

theorem withCta_old (cta : ResidentCta) (disp : CtaDispatcher) (hi : i < s.count) :
    (s.withCta cta disp).ctas i = s.ctas i := update_of_ne (Nat.ne_of_lt hi) ..

theorem withCta_all {cta : ResidentCta} {disp : CtaDispatcher} {P : ResidentCta → ℕ → Prop}
    (hold : ∀ i < s.count, P (s.ctas i) i) (hnew : P cta s.count) :
    ∀ i < (s.withCta cta disp).count, P ((s.withCta cta disp).ctas i) i := by
  intro i hi
  rcases Nat.lt_succ_iff_lt_or_eq.mp hi with hi | rfl
  · rw [withCta_old cta disp hi]
    exact hold i hi
  · rw [withCta_new]
    exact hnew

end

section Recount
variable (ctas : ℕ → ResidentCta) (i n m j : ℕ)

def recount : ℕ → ResidentCta := update ctas i { ctas i with issued := n, retired := m }

theorem recount_apply :
    recount ctas i n m j = if j = i then { ctas i with issued := n, retired := m } else ctas j :=
  update_apply ..

theorem ite_same (f : ResidentCta → ℕ) :
    (if j = i then f (ctas i) else f (ctas j)) = f (ctas j) := by
  split_ifs with hj
  · rw [hj]
  · rfl

theorem recount_slot : (recount ctas i n m j).slot = (ctas j).slot := by
  rw [recount_apply, apply_ite ResidentCta.slot]
  exact ite_same ..

theorem recount_lmemAddr : (recount ctas i n m j).lmemAddr = (ctas j).lmemAddr := by
  rw [recount_apply, apply_ite ResidentCta.lmemAddr]
  exact ite_same ..

theorem recount_issued : (recount ctas i n m j).issued = if j = i then n else (ctas j).issued := by
  rw [recount_apply]
  split_ifs <;> rfl

theorem recount_retired : (recount ctas i n m j).retired = if j = i then m
    else (ctas j).retired := by
  rw [recount_apply]
  split_ifs <;> rfl

end Recount

section Slots
variable [CoreConfig] {d : Descriptor}

def admitted (s : SlotTable) (loaded : CtaDispatcher) : SlotTable :=
  match s.dispatcher.current, loaded.current with
  | none, some c => { s with
      dispatcher := loaded
      count := s.count + 1
      ctas := update s.ctas s.count ⟨c.slot, c.lmemAddr, 0, 0⟩ }
  | _, _ => { s with dispatcher := loaded }

def issued (s : SlotTable) (active : ℕ → Bool) : SlotTable :=
  match s.dispatcher.current with
  | none => s
  | some c =>
    let r := s.dispatcher.issue active c
    match r.2 with
    | none => { s with dispatcher := r.1 }
    | some (wid, _) => { s with
        dispatcher := r.1
        ctas := update s.ctas (s.count - 1)
          { s.ctas (s.count - 1) with issued := (s.ctas (s.count - 1)).issued + 1 }
        warpOf := update s.warpOf wid (some (s.count - 1)) }

def retired (s : SlotTable) (wid : ℕ) : SlotTable :=
  match s.warpOf wid with
  | none => s
  | some i => { s with
      ctas := update s.ctas i { s.ctas i with retired := (s.ctas i).retired + 1 }
      warpOf := update s.warpOf wid none }

def step (s : SlotTable) : SlotCall d → Option (SlotTable × Unit)
  | .step active kmu => (s.dispatcher.load kmu.kmu).map fun r =>
      ((s.admitted r.1).issued active, ())
  | .warpDone wid => (s.dispatcher.warpDone wid).map fun disp =>
      ({ s.retired wid with dispatcher := disp }, ())

structure Empty (s : SlotTable) : Prop where
  current : s.dispatcher.current = none
  pending : s.dispatcher.pending = none
  slots : ∀ i, s.dispatcher.slotRemWarps i = 0
  wids : ∀ wid, s.dispatcher.widToSlot wid = numWarps
  count : s.count = 0
  warpOf : ∀ wid, s.warpOf wid = none

def Live (d : Descriptor) (s : SlotTable) (i : ℕ) : Prop :=
  i < s.count ∧ (s.ctas i).retired < d.warps

def byteAddr (s : SlotTable) (i o : ℕ) : ℕ := add64 (s.ctas i).lmemAddr o

structure Isolated (d : Descriptor) (s : SlotTable) : Prop where
  warps : ∀ i < s.count, (s.ctas i).retired ≤ (s.ctas i).issued ∧
    (s.ctas i).issued ≤ d.warps ∧
    (i + 1 < s.count → (s.ctas i).issued = d.warps)
  alone : ∀ i j, s.Live d i → s.Live d j → (s.ctas i).slot = (s.ctas j).slot → i = j
  remaining : ∀ i, s.Live d i →
    s.dispatcher.slotRemWarps (s.ctas i).slot = d.warps - (s.ctas i).retired
  free : ∀ slot, (∀ i, s.Live d i → (s.ctas i).slot ≠ slot) →
    s.dispatcher.slotRemWarps slot = 0
  reused : ∀ i j, i < j → j < s.count → (s.ctas i).slot = (s.ctas j).slot →
    (s.ctas i).retired = d.warps
  inside : ∀ i < s.count, ∀ o < d.stride, ∃ o' < lmemCapacity,
    s.byteAddr i o = add64 lmemBase o'
  apart : ∀ i j, s.Live d i → s.Live d j → i ≠ j → ∀ o < d.stride, ∀ o' < d.stride,
    s.byteAddr i o ≠ s.byteAddr j o'

def running (s : SlotTable) (i : ℕ) : Finset ℕ :=
  (range numWarps).filter fun wid => s.warpOf wid = some i

structure Inv (d : Descriptor) (s : SlotTable) : Prop where
  pending : ∀ r, s.dispatcher.pending = some r → r.desc = d ∧ 0 < d.blockSize
  current : ∀ c, s.dispatcher.current = some c →
    0 < s.count ∧ c.slot = (s.ctas (s.count - 1)).slot ∧
    c.ctaSize = d.warps ∧ c.rank = (s.ctas (s.count - 1)).issued ∧ c.rank < d.warps
  settled : s.dispatcher.current = none → ∀ i < s.count, (s.ctas i).issued = d.warps
  older : ∀ i, i + 1 < s.count → (s.ctas i).issued = d.warps
  wids : ∀ wid, s.dispatcher.widToSlot wid = match s.warpOf wid with
    | none => numWarps
    | some i => (s.ctas i).slot
  warpOf : ∀ wid i, s.warpOf wid = some i → wid < numWarps ∧ i < s.count
  held : ∀ i < s.count, (s.running i).card + (s.ctas i).retired ≤ (s.ctas i).issued
  bounded : ∀ i < s.count, (s.ctas i).issued ≤ d.warps
  slots : ∀ i < s.count, (s.ctas i).slot < usableSlots d.stride
  addrs : ∀ i < s.count, (s.ctas i).lmemAddr = add64 lmemBase ((s.ctas i).slot * d.stride)
  last : ∀ i < s.count, (∀ j, i < j → j < s.count → (s.ctas j).slot ≠ (s.ctas i).slot) →
    s.dispatcher.slotRemWarps (s.ctas i).slot = d.warps - (s.ctas i).retired
  reused : ∀ i j, i < j → j < s.count → (s.ctas i).slot = (s.ctas j).slot →
    (s.ctas i).retired = d.warps
  unused : ∀ slot, (∀ i < s.count, (s.ctas i).slot ≠ slot) →
    s.dispatcher.slotRemWarps slot = 0

/-- The kernel fits the 32-bit arithmetic of the dispatcher, and a CTA fits the local memory. -/
structure Fits (d : Descriptor) : Prop where
  stride : d.stride ≤ lmemCapacity
  block : d.blockSize + numThreads ≤ 2 ^ 32
  cluster : mul32 (mul32 d.clusterDim.x d.clusterDim.y) d.clusterDim.z + numWarps ≤ 2 ^ 32

variable {s : SlotTable}

theorem Empty.inv (h : s.Empty) : s.Inv d := by
  obtain ⟨hcurrent, hpending, hslots, hwids, hcount, hwarpOf⟩ := h
  have hnone : ∀ {i}, ¬i < s.count := by simp [hcount]
  constructor
  · intro r hr
    rw [hpending] at hr
    cases hr
  · intro c hc
    rw [hcurrent] at hc
    cases hc
  · exact fun _ i hi => absurd hi hnone
  · exact fun i hi => absurd (lt_of_succ_lt hi) hnone
  · intro wid
    rw [hwids, hwarpOf]
  · intro wid i hi
    rw [hwarpOf] at hi
    cases hi
  · exact fun i hi => absurd hi hnone
  · exact fun i hi => absurd hi hnone
  · exact fun i hi => absurd hi hnone
  · exact fun i hi => absurd hi hnone
  · exact fun i hi => absurd hi hnone
  · exact fun i j _ hj => absurd hj hnone
  · exact fun slot _ => hslots slot

variable {i slot wid j : ℕ} {r : KmuReq}

theorem Inv.retired_le (h : s.Inv d) (hi : i < s.count) :
    (s.ctas i).retired ≤ (s.ctas i).issued := (le_add_left _ _).trans (h.held i hi)

theorem Inv.retired_of_free (h : s.Inv d) (hfree : s.dispatcher.slotRemWarps slot = 0)
    (hi : i < s.count) (hslot : (s.ctas i).slot = slot) : (s.ctas i).retired = d.warps := by
  by_cases hlater : ∃ j, i < j ∧ j < s.count ∧ (s.ctas j).slot = (s.ctas i).slot
  · obtain ⟨j, hij, hj, heq⟩ := hlater
    exact h.reused i j hij hj heq.symm
  · have hrem := h.last i hi fun j hij hj heq => hlater ⟨j, hij, hj, heq⟩
    rw [hslot, hfree] at hrem
    have hle := (h.retired_le hi).trans (h.bounded i hi)
    omega

theorem Inv.free_of_retired (h : s.Inv d)
    (hall : ∀ i < s.count, (s.ctas i).slot = slot → d.warps ≤ (s.ctas i).retired) :
    s.dispatcher.slotRemWarps slot = 0 := by
  by_cases hnone : ∀ i < s.count, (s.ctas i).slot ≠ slot
  · exact h.unused slot hnone
  push Not at hnone
  obtain ⟨i, hi, hslot⟩ := hnone
  -- the newest CTA of the slot decides
  let p : ℕ → Prop := fun i => (s.ctas i).slot = slot
  have hle : i ≤ s.count - 1 := by omega
  have hp : p (findGreatest p (s.count - 1)) := findGreatest_spec hle hslot
  have hlt : findGreatest p (s.count - 1) < s.count := by
    have := findGreatest_le (P := p) (s.count - 1)
    omega
  have hrem := h.last _ hlt fun j hj hjc heq =>
    absurd (heq.trans hp) (findGreatest_is_greatest (P := p) hj (by omega))
  have hdone := hall _ hlt hp
  rw [show (s.ctas (findGreatest p (s.count - 1))).slot = slot from hp] at hrem
  omega

theorem ctaSize_eq (hfits : Fits d) (hr : r.desc = d) (base : ℕ) :
    (CurrentCta.admitted r base).ctaSize = d.warps := by
  have hblock := hfits.block
  simp only [CurrentCta.admitted, hr, Descriptor.warps]
  rw [mod_eq_of_lt (by omega)]

theorem warps_pos (hblock : 0 < d.blockSize) : 0 < d.warps := by
  have hpos := numThreads_pos
  exact div_pos (by omega) hpos

theorem window_bounds (hfits : Fits d) (hr : r.desc = d) {tail maxSlots : ℕ}
    (htail : tail < maxSlots) (hmax : maxSlots ≤ numWarps) :
    (window r tail maxSlots).1 + (window r tail maxSlots).2 ≤ maxSlots ∧
      0 < (window r tail maxSlots).2 := by
  have hlt := numWarps_lt
  have hcluster : r.clusterProduct + numWarps ≤ 2 ^ 32 := by
    rw [KmuReq.clusterProduct, hr]
    exact hfits.cluster
  by_cases hfirst : r.isFirstOfCluster = true
  · generalize hk : (if r.clusterProduct = 0 then 1 else r.clusterProduct) = k
    have hk_bounds : 0 < k ∧ k + numWarps ≤ 2 ^ 32 := by
      rw [← hk]
      split_ifs <;> omega
    have hsum : add32 tail k = tail + k := add32_of_lt (by omega)
    simp only [window, if_pos hfirst, hk, hsum]
    split_ifs <;> omega
  · simp only [window, if_neg hfirst]
    omega

theorem admit_cases (hfits : Fits d) (hr : r.desc = d) (disp : CtaDispatcher) :
    (∃ base, base < usableSlots d.stride ∧ disp.slotRemWarps base = 0 ∧
      disp.admitCta r = some (disp.place r base)) ∨
    ∃ tail, disp.admitCta r = some { disp with tailSlot := tail, pending := some r } := by
  obtain ⟨hM, hMw⟩ := usableSlots_bounds r.stride
  generalize htail : (if usableSlots r.stride ≤ disp.tailSlot then 0 else disp.tailSlot) = tail
  have htail_lt : tail < usableSlots r.stride := by
    rw [← htail]
    split_ifs <;> omega
  obtain ⟨hle, hpos⟩ := window_bounds hfits hr htail_lt hMw
  generalize hwindow : window r tail (usableSlots r.stride) = w at hle hpos
  obtain ⟨base, k⟩ := w
  rw [← htail] at hwindow
  have hadm := admit_eq hwindow (hle.trans hMw)
  by_cases hfree : ∀ i < k, disp.slotRemWarps (base + i) = 0
  · rw [if_pos hfree] at hadm
    refine .inl ⟨base, ?_, hfree 0 hpos, hadm⟩
    rw [← hr]
    exact lt_of_lt_of_le (Nat.lt_add_of_pos_right hpos) hle
  · rw [if_neg hfree] at hadm
    exact .inr ⟨_, hadm⟩

inductive Loads (d : Descriptor) (disp : CtaDispatcher) : CtaDispatcher → Prop
  | same : Loads d disp disp
  | placed (r : KmuReq) (base : ℕ) (hcurrent : disp.current = none) (hr : r.desc = d)
      (hblock : 0 < d.blockSize) (hbase : base < usableSlots d.stride)
      (hfree : disp.slotRemWarps base = 0) : Loads d disp (disp.place r base)
  | waiting (r : KmuReq) (tail : ℕ) (hcurrent : disp.current = none) (hr : r.desc = d)
      (hblock : 0 < d.blockSize) : Loads d disp { disp with tailSlot := tail, pending := some r }

theorem admit_loads (hfits : Fits d) {disp : CtaDispatcher} (hcurrent : disp.current = none)
    (hr : r.desc = d) (hblock : 0 < d.blockSize) :
    ∃ loaded, disp.admitCta r = some loaded ∧ Loads d disp loaded := by
  rcases admit_cases hfits hr disp with ⟨base, hbase, hfree, heq⟩ | ⟨tail, heq⟩
  · exact ⟨_, heq, .placed r base hcurrent hr hblock hbase hfree⟩
  · exact ⟨_, heq, .waiting r tail hcurrent hr hblock⟩

theorem load_loads (hfits : Fits d) (h : s.Inv d) (kmu : KernelKmu d) :
    ∃ loaded k, s.dispatcher.load kmu.kmu = some (loaded, k) ∧ Loads d s.dispatcher loaded := by
  cases hcurrent : s.dispatcher.current with
  | some c => exact ⟨_, _, by rw [load, hcurrent], .same⟩
  | none =>
    cases hpending : s.dispatcher.pending with
    | some r =>
      obtain ⟨hr, hblock⟩ := h.pending r hpending
      obtain ⟨loaded, heq, hloaded⟩ := admit_loads hfits hcurrent hr hblock
      exact ⟨loaded, kmu.kmu, by simp [load, hcurrent, hpending, heq], hloaded⟩
    | none =>
      cases hstep : kmu.kmu.step with
      | none => exact ⟨_, kmu.kmu, by simp only [load, hcurrent, hpending, hstep], .same⟩
      | some out =>
        obtain ⟨k, r⟩ := out
        obtain ⟨hrunning, hr⟩ := step_request hstep
        obtain ⟨loaded, heq, hloaded⟩ :=
          admit_loads hfits hcurrent (hr.trans kmu.desc) (kmu.block hrunning)
        exact ⟨loaded, k, by simp [load, hcurrent, hpending, hstep, heq], hloaded⟩

theorem Inv.waiting (h : s.Inv d) (hr : r.desc = d) (hblock : 0 < d.blockSize) (tail : ℕ) :
    Inv d { s with dispatcher := { s.dispatcher with tailSlot := tail, pending := some r } } := by
  refine { h with pending := fun r' hr' => ?_ }
  cases hr'
  exact ⟨hr, hblock⟩

theorem Inv.placed (h : s.Inv d) (hfits : Fits d) {base : ℕ}
    (hcurrent : s.dispatcher.current = none) (hr : r.desc = d) (hblock : 0 < d.blockSize)
    (hbase : base < usableSlots d.stride) (hfree : s.dispatcher.slotRemWarps base = 0) :
    Inv d (s.withCta ⟨base, add64 lmemBase (base * d.stride), 0, 0⟩
      (s.dispatcher.place r base)) := by
  have hsize := ctaSize_eq hfits hr base
  have hrem : ∀ slot, (s.dispatcher.place r base).slotRemWarps slot =
      if slot = base then d.warps else s.dispatcher.slotRemWarps slot := by
    intro slot
    simp only [place, hsize, update_apply]
  have hfresh : ∀ wid, s.warpOf wid ≠ some s.count :=
    fun wid hwid => lt_irrefl _ (h.warpOf wid _ hwid).2
  constructor
  · intro r' hr'
    cases hr'
  · intro c hc
    cases hc
    rw [show ∀ cta disp, (s.withCta cta disp).count - 1 = s.count from fun _ _ => rfl,
      withCta_new]
    exact ⟨succ_pos _, rfl, hsize, rfl, warps_pos hblock⟩
  · intro hnone
    cases hnone
  · intro i hi
    rw [withCta_old _ _ (lt_of_succ_lt_succ hi)]
    exact h.settled hcurrent i (lt_of_succ_lt_succ hi)
  · intro wid
    have hwid := h.wids wid
    cases hw : s.warpOf wid with
    | none =>
      simp only [withCta, place, hw, hwid]
    | some i =>
      have hold := withCta_old ⟨base, add64 lmemBase (base * d.stride), 0, 0⟩
        (s.dispatcher.place r base) (h.warpOf wid i hw).2
      simp only [withCta, place, hw, hwid] at hold ⊢
      rw [hold]
  · intro wid i hi
    obtain ⟨hwid, hlt⟩ := h.warpOf wid i hi
    exact ⟨hwid, lt_succ_of_lt hlt⟩
  · apply withCta_all (P := fun cta i => (s.running i).card + cta.retired ≤ cta.issued) h.held
    simp [running, hfresh]
  · exact withCta_all (P := fun cta _ => cta.issued ≤ d.warps) h.bounded (zero_le _)
  · exact withCta_all (P := fun cta _ => cta.slot < usableSlots d.stride) h.slots hbase
  · exact withCta_all (P := fun cta _ => cta.lmemAddr = add64 lmemBase (cta.slot * d.stride))
      h.addrs rfl
  · intro i hi hlater
    change (s.dispatcher.place r base).slotRemWarps _ = _
    rcases Nat.lt_succ_iff_lt_or_eq.mp hi with hi | rfl
    · have hne := hlater s.count hi (lt_succ_self _)
      rw [withCta_new, withCta_old _ _ hi] at hne
      rw [withCta_old _ _ hi, hrem, if_neg (Ne.symm hne)]
      refine h.last i hi fun j hij hj => ?_
      have hj' := hlater j hij (lt_succ_of_lt hj)
      rwa [withCta_old _ _ hj, withCta_old _ _ hi] at hj'
    · rw [withCta_new, hrem, if_pos rfl]
      rfl
  · intro i j hij hj heq
    have hi : i < s.count := by
      have : j < s.count + 1 := hj
      omega
    rw [withCta_old _ _ hi] at heq ⊢
    rcases Nat.lt_succ_iff_lt_or_eq.mp hj with hj | rfl
    · rw [withCta_old _ _ hj] at heq
      exact h.reused i j hij hj heq
    · rw [withCta_new] at heq
      exact h.retired_of_free hfree hi heq
  · intro slot hslot
    have hne := hslot s.count (lt_succ_self _)
    rw [withCta_new] at hne
    change (s.dispatcher.place r base).slotRemWarps slot = 0
    rw [hrem, if_neg (Ne.symm hne)]
    refine h.unused slot fun i hi => ?_
    have hold := hslot i (lt_succ_of_lt hi)
    rwa [withCta_old _ _ hi] at hold

theorem Inv.admitted (h : s.Inv d) (hfits : Fits d) {loaded : CtaDispatcher}
    (hload : Loads d s.dispatcher loaded) : Inv d (s.admitted loaded) := by
  cases hload with
  | same =>
    have heq : s.admitted s.dispatcher = s := by
      unfold SlotTable.admitted
      split
      · next hnone hsome =>
        rw [hnone] at hsome
        cases hsome
      · rfl
    rwa [heq]
  | placed r base hcurrent hr hblock hbase hfree =>
    have heq : s.admitted (s.dispatcher.place r base) =
        s.withCta ⟨base, add64 lmemBase (base * d.stride), 0, 0⟩
          (s.dispatcher.place r base) := by
      rw [← hr]
      simp only [SlotTable.admitted, hcurrent]
      rfl
    rw [heq]
    exact h.placed hfits hcurrent hr hblock hbase hfree
  | waiting r tail hcurrent hr hblock =>
    have heq : s.admitted { s.dispatcher with tailSlot := tail, pending := some r } =
        { s with dispatcher := { s.dispatcher with tailSlot := tail, pending := some r } } := by
      simp only [SlotTable.admitted, hcurrent]
    rw [heq]
    exact h.waiting hr hblock tail

theorem advance_cases {c : CurrentCta} (hsize : c.ctaSize < 2 ^ 32) (hrank : c.rank < c.ctaSize) :
    (c.advance = none ∧ c.rank + 1 = c.ctaSize) ∨
    ∃ c', c.advance = some c' ∧ c'.slot = c.slot ∧ c'.ctaSize = c.ctaSize ∧
    c'.rank = c.rank + 1 ∧ c.rank + 1 < c.ctaSize := by
  have hsum : add32 c.rank 1 = c.rank + 1 := add32_of_lt (by omega)
  unfold CurrentCta.advance
  rw [hsum]
  by_cases hlast : c.ctaSize ≤ c.rank + 1
  · rw [if_pos hlast]
    exact .inl ⟨rfl, by omega⟩
  · rw [if_neg hlast]
    exact .inr ⟨_, rfl, rfl, rfl, rfl, by omega⟩

theorem running_update_some (wid n i : ℕ) (warpOf : ℕ → Option ℕ) :
    ((range numWarps).filter fun w => update warpOf wid (some n) w = some i).card ≤
      ((range numWarps).filter fun w => warpOf w = some i).card + if i = n then 1 else 0 := by
  by_cases hi : i = n
  · rw [if_pos hi]
    refine (card_le_card ?_).trans (card_insert_le wid _)
    intro w hw
    rw [mem_filter, update_apply] at hw
    rw [mem_insert, mem_filter]
    by_cases hwid : w = wid
    · exact .inl hwid
    · rw [if_neg hwid] at hw
      exact .inr hw
  · rw [if_neg hi, add_zero]
    refine card_le_card ?_
    intro w hw
    rw [mem_filter, update_apply] at hw
    rw [mem_filter]
    by_cases hwid : w = wid
    · rw [if_pos hwid] at hw
      exact absurd (Option.some.inj hw.2).symm hi
    · rw [if_neg hwid] at hw
      exact hw

theorem running_update_none (hwid : wid < numWarps) {warpOf : ℕ → Option ℕ}
    (hi : warpOf wid = some i) (j : ℕ) :
    ((range numWarps).filter fun w => update warpOf wid none w = some j).card +
      (if j = i then 1 else 0) = ((range numWarps).filter fun w => warpOf w = some j).card := by
  have herase : ((range numWarps).filter fun w => update warpOf wid none w = some j) =
      ((range numWarps).filter fun w => warpOf w = some j).erase wid := by
    ext w
    by_cases hw : w = wid <;> simp [hw]
  rw [herase]
  by_cases hj : j = i
  · rw [if_pos hj, card_erase_add_one]
    rw [mem_filter, mem_range, hj]
    exact ⟨hwid, hi⟩
  · rw [if_neg hj, erase_eq_of_notMem, add_zero]
    rw [mem_filter, hi]
    exact fun hmem => hj (Option.some.inj hmem.2).symm

section
variable (h : s.Inv d)
include h

theorem Inv.issue (hfits : Fits d) {c : CurrentCta} (hc : s.dispatcher.current = some c)
    (hwid : wid < numWarps) (mask : ℕ → Bool) : Inv d
      { s with
        dispatcher := { s.dispatcher with
          current := c.advance
          warpInitMask := mask
          widToSlot := update s.dispatcher.widToSlot wid c.slot }
        ctas :=
          recount s.ctas (s.count - 1) ((s.ctas (s.count - 1)).issued + 1)
            (s.ctas (s.count - 1)).retired
        warpOf := update s.warpOf wid (some (s.count - 1)) } := by
  obtain ⟨hcount, hslot, hsize, hrank, hlt⟩ := h.current c hc
  have hsmall : d.warps < 2 ^ 32 := by
    have hblock := hfits.block
    exact lt_of_le_of_lt (div_le_self _ _) (by have := numThreads_pos; omega)
  have hadvance := @advance_cases _ _ (hsize ▸ hsmall) (hsize ▸ hlt)
  constructor
  · exact h.pending
  · intro c' hc'
    rcases hadvance with ⟨hnone, _⟩ | ⟨c'', hsome, hs, hn, hr, hmore⟩
    · cases hnone.symm.trans hc'
    cases hsome.symm.trans hc'
    refine ⟨hcount, ?_, hn.trans hsize, ?_, ?_⟩
    · simp only [recount_slot]
      exact hs.trans hslot
    · simp only [recount_issued, if_true]
      omega
    · omega
  · intro hnone i hi
    rcases hadvance with ⟨_, hdone⟩ | ⟨c', hsome, _⟩
    · simp only [recount_issued]
      split_ifs with hlast
      · omega
      · exact h.older i (by simp only at hi; omega)
    · cases hnone.symm.trans hsome
  · intro i hi
    simp only [recount_issued]
    simp only at hi
    rw [if_neg (by omega)]
    exact h.older i hi
  · intro w
    simp only [recount_slot, update_apply]
    by_cases hw : w = wid
    · simp only [if_pos hw]
      exact hslot
    · simp only [if_neg hw]
      exact h.wids w
  · intro w i hi
    simp only [update_apply] at hi
    split_ifs at hi with hw
    · cases hi
      exact ⟨hw ▸ hwid, by simp only; omega⟩
    · exact h.warpOf w i hi
  · intro i hi
    have hheld := h.held i hi
    have hcard := @running_update_some _ wid (s.count - 1) i s.warpOf
    simp only [running, recount_issued, recount_retired] at hheld hcard ⊢
    split_ifs at hcard ⊢ with hlast
    · subst hlast
      omega
    · omega
  · intro i hi
    have hle := h.bounded i hi
    simp only [recount_issued]
    split_ifs with hlast
    · omega
    · exact hle
  · simpa only [recount_slot] using h.slots
  · simpa only [recount_slot, recount_lmemAddr] using h.addrs
  · have hret : ∀ i, (recount s.ctas (s.count - 1) ((s.ctas (s.count - 1)).issued + 1)
        (s.ctas (s.count - 1)).retired i).retired = (s.ctas i).retired :=
      fun i => (recount_retired ..).trans (ite_same ..)
    simpa only [recount_slot, hret] using h.last
  · intro i j hij hj heq
    simp only [recount_slot] at heq
    simp only [recount_retired]
    simp only at hj
    rw [if_neg (by omega)]
    exact h.reused i j hij hj heq
  · simpa only [recount_slot] using h.unused

theorem Inv.issued (hfits : Fits d) (active : ℕ → Bool) : Inv d (s.issued active) := by
  cases hc : s.dispatcher.current with
  | none => simpa only [SlotTable.issued, hc] using h
  | some c =>
    cases hfind : (List.range numWarps).find? fun wid => !active wid with
    | none => simpa only [SlotTable.issued, hc, CtaDispatcher.issue, hfind] using h
    | some wid =>
      have hwid : wid < numWarps := List.mem_range.mp (List.mem_of_find?_eq_some hfind)
      simp only [SlotTable.issued, hc, CtaDispatcher.issue, hfind]
      exact h.issue hfits hc hwid _

theorem Inv.newest (hlive : (s.ctas i).retired < d.warps) (hij : i < j)
    (hj : j < s.count) : (s.ctas j).slot ≠ (s.ctas i).slot := by
  intro heq
  have hdone := h.reused i j hij hj heq.symm
  omega

theorem Inv.remaining (hi : i < s.count) (hlive : (s.ctas i).retired < d.warps) :
    s.dispatcher.slotRemWarps (s.ctas i).slot = d.warps - (s.ctas i).retired :=
  h.last i hi fun _ hij hj => h.newest hlive hij hj

theorem Inv.retired_lt (hi : s.warpOf wid = some i) : (s.ctas i).retired < (s.ctas i).issued := by
  obtain ⟨hwid, hlt⟩ := h.warpOf wid i hi
  have hheld := h.held i hlt
  have hmem : wid ∈ s.running i := by
    rw [running, mem_filter, mem_range]
    exact ⟨hwid, hi⟩
  have hpos := card_pos.mpr ⟨wid, hmem⟩
  omega

theorem Inv.retire (hi : s.warpOf wid = some i) : Inv d
      { s with
        dispatcher := { s.dispatcher with
          widToSlot := update s.dispatcher.widToSlot wid numWarps
          slotRemWarps := update s.dispatcher.slotRemWarps (s.ctas i).slot
            (s.dispatcher.slotRemWarps (s.ctas i).slot - 1) }
        ctas := recount s.ctas i (s.ctas i).issued ((s.ctas i).retired + 1)
        warpOf := update s.warpOf wid none } := by
  obtain ⟨hwid, hcount⟩ := h.warpOf wid i hi
  have hretired := h.retired_lt hi
  have hlive : (s.ctas i).retired < d.warps := hretired.trans_le (h.bounded i hcount)
  have hrem := h.remaining hcount hlive
  have hissued : ∀ j, (recount s.ctas i (s.ctas i).issued ((s.ctas i).retired + 1) j).issued =
      (s.ctas j).issued :=
    fun j => (recount_issued ..).trans (ite_same ..)
  constructor
  · exact h.pending
  · simpa only [recount_slot, hissued] using h.current
  · simpa only [hissued] using h.settled
  · simpa only [hissued] using h.older
  · intro w
    simp only [recount_slot, update_apply]
    by_cases hw : w = wid
    · simp only [if_pos hw]
    · simp only [if_neg hw]
      exact h.wids w
  · intro w j hj
    simp only [update_apply] at hj
    split_ifs at hj with hw
    exact h.warpOf w j hj
  · intro j hj
    have hheld := h.held j hj
    have hcard := @running_update_none _ _ _ hwid _ hi j
    simp only [running, hissued, recount_retired] at hheld hcard ⊢
    split_ifs at hcard ⊢ with hji
    · subst hji
      omega
    · omega
  · simpa only [hissued] using h.bounded
  · simpa only [recount_slot] using h.slots
  · simpa only [recount_slot, recount_lmemAddr] using h.addrs
  · intro j hj hlater
    simp only [recount_slot] at hlater
    simp only [recount_slot, recount_retired, update_apply]
    by_cases hji : j = i
    · rw [if_pos hji, hji, if_pos rfl, hrem]
      omega
    have hne : (s.ctas j).slot ≠ (s.ctas i).slot := by
      intro heq
      rcases lt_or_gt_of_ne hji with hlt | hgt
      · exact hlater i hlt hcount heq.symm
      · exact h.newest hlive hgt hj heq
    rw [if_neg hji, if_neg hne]
    exact h.last j hj hlater
  · intro j k hjk hk heq
    simp only [recount_slot] at heq
    have hdone := h.reused j k hjk hk heq
    simp only [recount_retired]
    split_ifs with hji
    · rw [hji] at hdone
      omega
    · exact hdone
  · intro slot hslot
    simp only [recount_slot] at hslot
    have hne : slot ≠ (s.ctas i).slot := fun heq => hslot i hcount heq.symm
    simp only [update_apply, if_neg hne]
    exact h.unused slot hslot

theorem Inv.warpDone (wid : ℕ) :
    ∃ s', s.step (.warpDone (d := d) wid) = some (s', ()) ∧ Inv d s' := by
  have hslot := h.wids wid
  cases hw : s.warpOf wid with
  | none =>
    refine ⟨s, ?_, h⟩
    simp [step, CtaDispatcher.warpDone, hslot, retired, hw]
  | some i =>
    obtain ⟨_, hi⟩ := h.warpOf wid i hw
    have hlive := (h.retired_lt hw).trans_le (h.bounded i hi)
    have hrem := h.remaining hi hlive
    have hin : ¬numWarps ≤ (s.ctas i).slot := by
      have hlt := h.slots i hi
      have hle := (usableSlots_bounds d.stride).2
      omega
    have hpos : s.dispatcher.slotRemWarps (s.ctas i).slot ≠ 0 := by omega
    refine ⟨_, ?_, h.retire hw⟩
    simp [step, CtaDispatcher.warpDone, hslot, if_neg hin, if_neg hpos, retired, hw, recount]

theorem Inv.step (hfits : Fits d) (call : SlotCall d) :
    ∃ s', s.step call = some (s', ()) ∧ Inv d s' := by
  cases call with
  | step active kmu =>
    obtain ⟨loaded, k, hload, hloads⟩ := load_loads hfits h kmu
    refine ⟨(s.admitted loaded).issued active, ?_,
      (h.admitted hfits hloads).issued hfits active⟩
    simp [SlotTable.step, hload]
  | warpDone wid => exact h.warpDone wid

end

theorem slot_inside {stride o : ℕ} (hstride : stride ≤ lmemCapacity)
    (hslot : slot < usableSlots stride) (ho : o < stride) : slot * stride + o < lmemCapacity := by
  have hpos : 0 < stride := by omega
  have hfit : 0 < lmemCapacity / stride := div_pos hstride hpos
  have hlt : slot + 1 ≤ lmemCapacity / stride := by
    simp only [usableSlots, if_neg (ne_of_gt hpos)] at hslot
    split_ifs at hslot <;> omega
  calc slot * stride + o < (slot + 1) * stride := by rw [succ_mul]; omega
    _ ≤ lmemCapacity / stride * stride := mul_le_mul_right _ hlt
    _ ≤ lmemCapacity := div_mul_le_self ..

omit [CoreConfig] in
theorem add64_inj {a b c : ℕ} (hb : b < 2 ^ 32) (hc : c < 2 ^ 32) (h : add64 a b = add64 a c) :
    b = c := by
  simp only [add64] at h
  omega

theorem Inv.byteAddr_eq (h : s.Inv d) (hi : i < s.count) (o : ℕ) :
    s.byteAddr i o = add64 lmemBase ((s.ctas i).slot * d.stride + o) := by
  rw [byteAddr, h.addrs i hi, add64_add64]

theorem Inv.alone (h : s.Inv d) (hi : s.Live d i) (hj : s.Live d j)
    (heq : (s.ctas i).slot = (s.ctas j).slot) : i = j := by
  rcases lt_trichotomy i j with hlt | rfl | hgt
  · exact absurd heq.symm (h.newest hi.2 hlt hj.1)
  · rfl
  · exact absurd heq (h.newest hj.2 hgt hi.1)

theorem lmemCapacity_lt : lmemCapacity < 2 ^ 32 :=
  Nat.pow_lt_pow_right (by decide) lmemLogSize_lt

theorem Inv.apart (h : s.Inv d) (hfits : Fits d) (hi : s.Live d i) (hj : s.Live d j)
    (hne : i ≠ j) {o o' : ℕ} (ho : o < d.stride) (ho' : o' < d.stride) :
    s.byteAddr i o ≠ s.byteAddr j o' := by
  have hcap := lmemCapacity_lt
  have hin := slot_inside hfits.stride (h.slots i hi.1) ho
  have hjn := slot_inside hfits.stride (h.slots j hj.1) ho'
  rw [h.byteAddr_eq hi.1, h.byteAddr_eq hj.1]
  intro heq
  have hoff := add64_inj (hin.trans hcap) (hjn.trans hcap) heq
  -- the slot is the quotient of the offset by the stride
  have hslots : (s.ctas i).slot = (s.ctas j).slot := by
    have hpos : 0 < d.stride := by omega
    have hquot := congrArg (· / d.stride) hoff
    simpa [mul_comm _ d.stride, mul_add_div hpos, div_eq_of_lt ho, div_eq_of_lt ho'] using hquot
  exact hne (h.alone hi hj hslots)

theorem Inv.isolated (h : s.Inv d) (hfits : Fits d) : s.Isolated d where
  warps := fun i hi => ⟨h.retired_le hi, h.bounded i hi, h.older i⟩
  alone := fun _ _ hi hj heq => h.alone hi hj heq
  remaining := fun _ hi => h.remaining hi.1 hi.2
  free := fun _ hslot => h.free_of_retired fun i hi heq =>
    not_lt.mp fun hlive => hslot i ⟨hi, hlive⟩ heq
  reused := h.reused
  inside := fun i hi o ho => ⟨_, slot_inside hfits.stride (h.slots i hi) ho, h.byteAddr_eq hi o⟩
  apart := fun _ _ hi hj hne _ ho _ ho' => h.apart hfits hi hj hne ho ho'

/-- The local memory of the CTAs of a kernel is never shared. -/
theorem slots_isolated (hempty : s.Empty) (hfits : Fits d) (calls : List (SlotCall d)) :
    ∃ t outs, run SlotTable.step s calls = some (t, outs) ∧ t.Isolated d := by
  obtain ⟨t, outs, hrun, ht⟩ := run_keeps (I := Inv d) (C := fun _ _ => True)
    (fun s call h _ => by
      obtain ⟨s', hstep, hs'⟩ := h.step hfits call
      exact ⟨s', (), hstep, hs'⟩)
    hempty.inv (Along.of_forall fun _ _ => trivial)
  exact ⟨t, outs, hrun, ht.isolated hfits⟩

def reset : SlotTable := ⟨CtaDispatcher.reset, 0, fun _ => ⟨0, 0, 0, 0⟩, fun _ => none⟩

theorem reset_empty : reset.Empty := ⟨rfl, rfl, fun _ => rfl, fun _ => rfl, rfl, fun _ => rfl⟩

def fillCalls : ℕ → ℕ → KernelKmu d → List (SlotCall d)
  | 0, _, _ => []
  | n + 1, busy, k => .step (fun wid => decide (wid < busy)) k :: fillCalls n (busy + 1) k.next

end Slots

theorem slots_isolated_sample : letI := smallCore
    let d := { sampleDescriptor 8 with lmemSize := 100 }
    ∃ t outs, run SlotTable.step reset (fillCalls 4 0 (.start (Kmu.idle d)) ++ [.warpDone 1]) =
      some (t, outs) ∧ t.Isolated d :=
  letI := smallCore
  slots_isolated reset_empty ⟨by decide +kernel, by decide +kernel, by decide +kernel⟩ _

/-- The number of warps of a block of `2 ^ 32 - 1` threads wraps to zero, and the slot of a CTA
whose warp runs is given to the next one that asks for it. -/
theorem large_block_shares_slot : letI := smallCore
    let d := sampleDescriptor (2 ^ 32 - 1)
    d.stride ≤ lmemCapacity ∧ ∃ t outs,
      run SlotTable.step reset (fillCalls 5 0 (.start (Kmu.idle d))) = some (t, outs) ∧
      t.warpOf 0 = some 0 ∧ t.Live d 0 ∧ t.Live d 4 ∧ (t.ctas 0).slot = (t.ctas 4).slot ∧
      t.dispatcher.slotRemWarps 0 = 0 ∧ ¬t.Isolated d := by
  let := smallCore
  refine ⟨by decide +kernel, _, _, rfl, by decide +kernel,
    ⟨by decide +kernel, by decide +kernel⟩,
    ⟨by decide +kernel, by decide +kernel⟩, by decide +kernel, by decide +kernel, fun h => ?_⟩
  have hsame :=
    h.alone 0 4 ⟨by decide +kernel, by decide +kernel⟩
      ⟨by decide +kernel, by decide +kernel⟩
    (by decide +kernel)
  cases hsame

end SlotTable

end VortexGpu.Simx

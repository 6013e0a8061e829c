import VortexGpu.MemAllocRuns
import VortexGpu.VmManager

/-!
# Device memory and its accounts

`mem_alloc`, `mem_reserve` and `mem_free` work on two heaps, `mem false` for `global_mem_` and
`mem true` for the pinned slab that was reserved out of it, and with an MMU on the allocator of
virtual addresses. A ledger beside the device notes what each live buffer was given. Without an MMU
ledger and heaps agree after every sequence of calls; with one they agree as long as nothing is
freed and no mapping fails, but no virtual range is ever given back.
-/

namespace VortexGpu.Vm
open MemAlloc Word Runs List Option

inductive MemError where
  | invalidValue
  | outOfDeviceMemory
  | hostMemory
deriving DecidableEq, Repr

structure Device where
  mem : Bool → MemoryAllocator
  pinned : Bool
  pinnedBase : ℕ
  pinnedSize : ℕ
  hostMems : List ℕ
  vm : Option VMManager

/-- Half of the memory at most, in whole pages. -/
def resolvePinnedSize (c : VMConfig) (requested : ℕ) : ℕ :=
  min requested ((c.globalMemSize - c.userBase) / 2) / ptSize * ptSize

/-- The heaps as the constructor leaves them. -/
def Device.new (c : VMConfig) (requested : ℕ) : Option Device := do
  let globalMem := MemoryAllocator.new ⟨c.userBase, c.globalMemSize - c.userBase, ptSize, 64⟩
  let heaps (mem : MemoryAllocator) (base size : ℕ) (p : Bool) :=
    if p then .new ⟨base, size, ptSize, 64⟩ else mem
  let size := resolvePinnedSize c requested
  if size = 0 then some ⟨heaps globalMem 0 0, false, 0, 0, [], none⟩
  else do
    match ← globalMem.reserve c.userBase size with
    | (mem, .ok _) => some ⟨heaps mem c.userBase size, true, c.userBase, size, [], none⟩
    | (mem, .error _) => some ⟨heaps mem 0 0, false, 0, 0, [], none⟩

/-- A call, with the answer of the platform to a request for host memory. -/
inductive MemCall where
  | alloc (size flags : ℕ) (outAddr : Bool) (host : Option ℕ)
  | reserve (addr size : ℕ)
  | free (addr : ℕ)
deriving DecidableEq, Repr

namespace Device
variable (c : VMConfig) (d : Device)

def withMem (p : Bool) (s : MemoryAllocator) : Device :=
  { d with mem := Function.update d.mem p s }

/-- A device with an MMU takes the page tables out of its memory before it builds them; `none` also
stands for a device that does not open. -/
def deviceOpen (requested : ℕ) (vm : Option VMManager) : Option Device := do
  let d ← Device.new c requested
  match vm with
  | none => some d
  | some v =>
    match ← (d.mem false).reserve c.pageTableBase c.ptSizeLimit with
    | (s, .ok _) => some { d.withMem false s with vm := some v }
    | (_, .error _) => none

/-- `VX_MEM_PHYS` goes to the slab when there is one. -/
def fromPinned (flags : ℕ) : Bool := flags.testBit 3 && d.pinned

def inPinnedRange (addr size : ℕ) : Bool :=
  d.pinned && d.pinnedBase ≤ addr && add64 addr size ≤ add64 d.pinnedBase d.pinnedSize

def inPinned (addr : ℕ) : Bool :=
  d.pinned && d.pinnedBase ≤ addr && addr < add64 d.pinnedBase d.pinnedSize

/-- The identity mapping of a block, on a device with an MMU. -/
def identityMapped (addr size : ℕ) : Option (Device × Except MemError ℕ) :=
  match d.vm with
  | none => some (d, .ok addr)
  | some v => do
    let (v, ok) ← v.installIdentityMap c addr size
    some ({ d with vm := some v }, if ok then .ok addr else .error .invalidValue)

def memAlloc (size flags : ℕ) (outAddr : Bool) (host : Option ℕ) :
    Option (Device × Except MemError ℕ) :=
  if outAddr = false ∨ size = 0 then some (d, .error .invalidValue)
  else if flags.testBit 4 then
    match host with
    | none => some (d, .error .hostMemory)
    | some cpAddr => some ({ d with hostMems := d.hostMems.insert cpAddr }, .ok cpAddr)
  else do
    let asize := alignUp64 size 64
    let p := d.fromPinned flags
    match ← (d.mem p).allocate asize true with
    | (s, .ok (some pa)) =>
      if flags.testBit 3 then (d.withMem p s).identityMapped c pa asize
      else
        match d.vm with
        | none => some (d.withMem p s, .ok pa)
        | some v => do
          let (v, va) ← v.phyToVirtMap c asize pa flags
          some ({ d.withMem p s with vm := some v }, .ok va)
    | (s, _) => some (d.withMem p s, .error .outOfDeviceMemory)

def memReserve (addr size : ℕ) : Option (Device × Except MemError ℕ) :=
  if size = 0 then some (d, .error .invalidValue)
  else do
    let asize := alignUp64 size 64
    let p := d.inPinnedRange addr asize
    match ← (d.mem p).reserve addr asize with
    | (s, .ok _) => (d.withMem p s).identityMapped c addr asize
    | (s, .error _) => some (d.withMem p s, .error .invalidValue)

/-- The physical address of a buffer; one without a translation is taken as it is. -/
def resolve (addr : ℕ) : Option ℕ :=
  match d.vm with
  | none => some addr
  | some v => do
    match ← v.pageTableWalk c addr with
    | .ok pa => some pa
    | .error _ => some addr

def memFree (addr : ℕ) : Option (Device × Except MemError ℕ) :=
  if addr ∈ d.hostMems then some ({ d with hostMems := d.hostMems.erase addr }, .ok addr)
  else do
    let pa ← d.resolve c addr
    let p := d.inPinned pa
    match ← (d.mem p).release pa with
    | (s, .ok _) => some (d.withMem p s, .ok addr)
    | (s, .error _) => some (d.withMem p s, .error .invalidValue)

def call : MemCall → Option (Device × Except MemError ℕ)
  | .alloc size flags outAddr host => d.memAlloc c size flags outAddr host
  | .reserve addr size => d.memReserve c addr size
  | .free addr => d.memFree c addr

def used (p : Bool) : List Span := (d.mem p).live

def virtualUsed : List Span := (d.vm.map (·.virtualMem.live)).getD []

end Device

structure Buffer where
  handle : ℕ
  pinned : Bool
  block : Span
  virtual : Option Span
deriving DecidableEq

structure Ledger where
  dev : Device
  buffers : List Buffer

def gained (before after : List Span) : Option Span := after.find? fun b => decide (b ∉ before)

namespace Ledger

def granted (w : Ledger) (p : Bool) (handle : ℕ) (d : Device) : List Buffer :=
  (gained (w.dev.used p) (d.used p)).toList.map (⟨handle, p, ·,
    gained w.dev.virtualUsed d.virtualUsed⟩) ++ w.buffers

def book (w : Ledger) (d : Device) : MemCall → Except MemError ℕ → List Buffer
  | .alloc _ flags _ _, .ok a => if flags.testBit 4 then w.buffers
      else w.granted (w.dev.fromPinned flags) a d
  | .reserve addr size, .ok _ => w.granted (w.dev.inPinnedRange addr (alignUp64 size 64)) addr d
  | .free addr, .ok _ => if addr ∈ w.dev.hostMems then w.buffers
      else w.buffers.eraseP (·.handle == addr)
  | _, .error _ => w.buffers

def step (c : VMConfig) (w : Ledger) (a : MemCall) : Option (Ledger × Except MemError ℕ) :=
  (w.dev.call c a).map fun r => (⟨r.1, w.book r.1 a r.2⟩, r.2)

/-- An allocation that fails takes nothing; freeing a live buffer gives back what it was given. -/
def Exact (w : Ledger) (a : MemCall) (w' : Ledger) (r : Except MemError ℕ) : Prop :=
  match a, r with
  | .alloc .., .error _ | .reserve .., .error _ =>
    w'.dev.used = w.dev.used ∧ w'.dev.virtualUsed = w.dev.virtualUsed
  | .free addr, r => ∀ b ∈ w.buffers, b.handle = addr → r = .ok addr ∧
    (w.dev.used b.pinned).Perm (b.block :: w'.dev.used b.pinned) ∧
    w'.dev.used (!b.pinned) = w.dev.used (!b.pinned) ∧
    w.dev.virtualUsed.Perm (b.virtual.toList ++ w'.dev.virtualUsed)
  | _, _ => True

/-- Nothing wraps around, and the first page of the slab fits it. -/
def PoolLaw (p : Bool) (s : MemoryAllocator) (a : Call) : Prop :=
  NoWrap s a ∧ (p = true → Contained s a)

/-- The call comes to a heap; what the heap gives is mapped if there is an MMU. -/
def Reaches (c : VMConfig) (w : Ledger) (a : MemCall) (p : Bool) (x : Call) : Prop :=
  PoolLaw p (w.dev.mem p) x ∧
    (w.dev.vm.isNone = true ∨ (w.dev.call c a).any (·.2.toBool) = true ∨
    (MemAlloc.call (w.dev.mem p) x).any (!·.2.toBool) = true)

/-- With an MMU nothing is freed and no mapping fails, and a handle of host memory is not that of
another live buffer. -/
def Accounts (c : VMConfig) (w : Ledger) : MemCall → Prop
  | .alloc size flags outAddr host => outAddr = false ∨ size = 0 ∨ flags.testBit 4 = true ∨
    w.Reaches c (.alloc size flags outAddr host) (w.dev.fromPinned flags)
      (.allocate (alignUp64 size 64) true)
  | .reserve addr size => size = 0 ∨ w.Reaches c (.reserve addr size)
    (w.dev.inPinnedRange addr (alignUp64 size 64)) (.reserve addr (alignUp64 size 64))
  | .free addr => if addr ∈ w.dev.hostMems then ∀ b ∈ w.buffers, b.handle ≠ addr
    else w.dev.vm.isNone = true

instance (c : VMConfig) (w : Ledger) : (a : MemCall) → Decidable (w.Accounts c a)
  | .alloc .. => by unfold Accounts Reaches PoolLaw; infer_instance
  | .reserve .. => by unfold Accounts Reaches PoolLaw; infer_instance
  | .free _ => by unfold Accounts; infer_instance

end Ledger

/-- The pages of the slab stay inside of it. -/
structure PoolOk (g : Geometry) (p : Bool) (s : MemoryAllocator) : Prop where
  geometry : p = true → s.toGeometry = g
  inv : Inv (fun r => p = true → g.Holding r) s

section Heap
variable {g : Geometry} {p : Bool} {s s' : MemoryAllocator}

theorem PoolOk.served {n : ℕ} {b : Span} (h : PoolOk g p s)
    (hs : Served (fun r => p = true → g.Holding r) s s' n b) :
    PoolOk g p s' := ⟨fun hp => hs.geometry.trans (h.geometry hp), hs.inv⟩

theorem PoolOk.allocate (hg : g.baseAddress + g.capacity < 2 ^ 64) (h : PoolOk g p s) {n : ℕ}
    (hc : Ledger.PoolLaw p s (.allocate n true)) :
    (∃ e, s.allocate n true = some (s, .error e)) ∨
      ∃ s' b, s.allocate n true = some (s', .ok (some b.addr)) ∧ PoolOk g p s' ∧
      s'.live.Perm (b :: s.live) := by
  obtain ⟨⟨hround, hnew⟩, hwindow⟩ := hc
  refine (allocate_spec h.inv true hround fun hnone =>
    ⟨(hnew hnone).1, fun a ha => ⟨(hnew hnone).2 a ha, ?_⟩⟩).imp_right ?_
  · rintro rfl
    obtain ⟨-, hempty, hfirst, hends⟩ := (hwindow rfl).2 hnone
    have hinv : Inv g.Holding s := by simpa using h.inv
    exact (findNextAddress_inWindow hinv (h.geometry rfl) hg hempty hfirst hends ha).2
  · rintro ⟨s', b, hs', -, hserved⟩
    exact ⟨s', b, hs', h.served hserved, hserved.live⟩

theorem PoolOk.reserve (hg : g.baseAddress + g.capacity < 2 ^ 64) (h : PoolOk g p s) {addr n : ℕ}
    (hc : Ledger.PoolLaw p s (.reserve addr n)) : (∃ e, s.reserve addr n = some (s, .error e)) ∨
      ∃ s' b, s.reserve addr n = some (s', .ok none) ∧ PoolOk g p s' ∧
      s'.live.Perm (b :: s.live) ∧ b.addr = addr := by
  obtain ⟨⟨hround, hw⟩, hwindow⟩ := hc
  refine (reserve_spec h.inv hround hw fun hlim hp => ?_).imp_right ?_
  · have hlow := (hwindow hp).1
    rw [MemoryAllocator.limit, h.geometry hp, add64_of_lt hg] at hlim
    rw [h.geometry hp] at hlow
    exact ⟨hlow, by rwa [h.geometry hp]⟩
  · rintro ⟨s', b, hs', -, -, hserved, rfl⟩
    exact ⟨s', _, hs', h.served hserved, hserved.live, rfl⟩

theorem PoolOk.size_pos (h : PoolOk g p s) {b : Span} (hb : b ∈ s.live) : 0 < b.size := by
  obtain ⟨q, hq, hbq⟩ := mem_flatMap.mp hb
  exact ((h.inv.ok q hq).wellFormed.used_inside hbq).2.1

theorem PoolOk.eq_of_addr (h : PoolOk g p s) {b b' : Span} (hb : b ∈ s.live) (hb' : b' ∈ s.live)
    (haddr : b.addr = b'.addr) : b = b' := by
  by_contra hne
  have hsymm : Std.Symm Span.Apart := ⟨fun _ _ => Span.Apart.symm⟩
  have hap := h.inv.live_apart.forall hb hb' hne
  have hpos := h.size_pos hb
  have hpos' := h.size_pos hb'
  simp only [Span.Apart, Span.stop] at hap
  omega

theorem gained_cons {before after : List Span} {b : Span} (h : after.Perm (b :: before))
    (hb : b ∉ before) : gained before after = some b := by
  cases hf : gained before after with
  | none =>
    have hno := find?_eq_none.mp hf b (h.mem_iff.mpr mem_cons_self)
    simp [hb] at hno
  | some x =>
    have hx := find?_some hf
    rcases mem_cons.mp (h.mem_iff.mp (mem_of_find?_eq_some hf)) with rfl | hmem
    · rfl
    · simp [hmem] at hx

end Heap

namespace Device

def slab (o : Device) : Geometry := ⟨o.pinnedBase, o.pinnedSize, ptSize, 64⟩

structure Opened (o : Device) : Prop where
  bound : o.pinnedBase + o.pinnedSize < 2 ^ 64
  pinned_iff : o.pinned = true ↔ 0 < o.pinnedSize
  heaps : ∀ p, PoolOk o.slab p (o.mem p)
  slabUsed : o.pinned = true → ⟨o.pinnedBase, o.pinnedSize⟩ ∈ o.used false
  others : o.vm.isNone = true → ∀ b ∈ o.used false, o.pinned = true ∧ b.addr = o.pinnedBase
  unused : o.used true = []

end Device

namespace Ledger
variable {c : VMConfig} {o : Device} {w : Ledger} {p : Bool} {s : MemoryAllocator} {b : Span}
  {addr : ℕ}

def blocks (buffers : List Buffer) (p : Bool) : List Span :=
  (buffers.filter (·.pinned = p)).map Buffer.block

/-- The heaps hold the blocks of the live buffers and what they held at the beginning. -/
structure Balanced (o : Device) (w : Ledger) : Prop where
  base : w.dev.pinnedBase = o.pinnedBase
  size : w.dev.pinnedSize = o.pinnedSize
  slab : w.dev.pinned = o.pinned
  mmu : w.dev.vm.isNone = o.vm.isNone
  vm : w.buffers = [] → w.dev.vm = o.vm
  heaps : ∀ p, PoolOk o.slab p (w.dev.mem p)
  used : ∀ p, (w.dev.used p).Perm (blocks w.buffers p ++ o.used p)
  buffers : w.dev.vm.isNone = true → ∀ b ∈ w.buffers, b.handle = b.block.addr ∧
    b.virtual = none

theorem Balanced.withMem (h : Balanced o w) (hs : PoolOk o.slab p s) {buffers : List Buffer}
    {vm : Option VMManager} (hmmu : vm.isNone = w.dev.vm.isNone) (hvm : buffers = [] → vm = o.vm)
    (hlive : s.live.Perm (blocks buffers p ++ o.used p))
    (hother : blocks buffers (!p) = blocks w.buffers (!p))
    (hbuffers : vm.isNone = true → ∀ b ∈ buffers, b.handle = b.block.addr ∧
      b.virtual = none) : Balanced o ⟨{ w.dev.withMem p s with vm }, buffers⟩ := by
  refine { h with
    mmu := hmmu.trans h.mmu, vm := hvm, heaps := fun q => ?_, used := fun q => ?_,
    buffers := hbuffers }
  · by_cases hq : q = p
    · subst hq
      simpa [Device.withMem] using hs
    · simpa [Device.withMem, hq] using h.heaps q
  · by_cases hq : q = p
    · subst hq
      simpa [Device.used, Device.withMem] using hlive
    · obtain rfl : q = !p := Bool.eq_not_of_ne hq
      have hkept := h.used (!p)
      rw [← hother] at hkept
      simpa [Device.used, Device.withMem] using hkept

theorem withMem_self (d : Device) (p : Bool) : d.withMem p (d.mem p) = d := by
  simp [Device.withMem]

theorem withMem_used (d : Device) :
    (d.withMem p s).used p = s.live ∧ (d.withMem p s).used (!p) = d.used (!p) := by
  simp [Device.used, Device.withMem]

section
variable (h : Balanced o w)
include h

theorem Balanced.grant (hs : PoolOk o.slab p s) (hlive : s.live.Perm (b :: w.dev.used p))
    {vm : Option VMManager}
    (hmmu : vm.isNone = w.dev.vm.isNone) (haddr : w.dev.vm.isNone = true → addr = b.addr) :
    Balanced o ⟨{ w.dev.withMem p s with vm }, w.granted p addr { w.dev.withMem p s with
      vm }⟩ := by
  have hnew : b ∉ w.dev.used p := by
    intro hmem
    have hpos := (h.heaps p).size_pos hmem
    have hap := (pairwise_cons.mp (hlive.pairwise hs.inv.live_apart Span.Apart.symm)).1 b hmem
    simp only [Span.Apart, Span.stop] at hap
    omega
  have hgranted : w.granted p addr { w.dev.withMem p s with vm } =
      ⟨addr, p, b, gained w.dev.virtualUsed ((vm.map (·.virtualMem.live)).getD [])⟩ ::
      w.buffers := by
    change (gained (w.dev.used p) ((w.dev.withMem p s).used p)).toList.map _ ++ w.buffers = _
    rw [(withMem_used w.dev).1, gained_cons hlive hnew]
    rfl
  rw [hgranted]
  refine h.withMem hs hmmu (absurd · (cons_ne_nil _ _)) ?_ (by cases p <;> simp [blocks]) ?_
  · have hblocks := hlive.trans ((h.used p).cons b)
    simpa [blocks] using hblocks
  · rintro hnone x (_ | ⟨_, hx⟩)
    · rw [isNone_iff_eq_none.mp hnone]
      exact ⟨haddr (hmmu ▸ hnone), rfl⟩
    · exact h.buffers (hmmu ▸ hnone) x hx

section
variable (ho : o.Opened)
include ho

theorem Balanced.inPinned_iff (addr : ℕ) : w.dev.inPinned addr = true ↔
    o.pinnedBase ≤ addr ∧ addr < o.pinnedBase + o.pinnedSize := by
  have hslab := ho.pinned_iff
  rw [Device.inPinned, h.base, h.size, h.slab, add64_of_lt ho.bound, Bool.and_eq_true,
    Bool.and_eq_true, decide_eq_true_eq, decide_eq_true_eq]
  refine ⟨fun hin => ⟨hin.1.2, hin.2⟩,
    fun hin => ⟨⟨hslab.mpr (by omega), hin.1⟩, hin.2⟩⟩

theorem Balanced.inPinned (hb : b ∈ blocks w.buffers p) : w.dev.inPinned b.addr = p := by
  have hmem : b ∈ w.dev.used p := (h.used p).mem_iff.mpr (mem_append_left _ hb)
  have hpos := (h.heaps p).size_pos hmem
  cases p with
  | true =>
    obtain ⟨q, hq, hbq⟩ := mem_flatMap.mp hmem
    have hin := ((h.heaps true).inv.ok q hq).wellFormed.used_inside hbq
    obtain ⟨hlo, hhi⟩ := ((h.heaps true).inv.ok q hq).placed rfl
    simp only [Span.stop, Page.range, Device.slab] at hin hlo hhi
    exact (h.inPinned_iff ho _).mpr (by omega)
  | false =>
    rw [Bool.eq_false_iff, Ne, h.inPinned_iff ho]
    intro hin
    have hslab : (⟨o.pinnedBase, o.pinnedSize⟩ : Span) ∈ o.used false := by
      exact ho.slabUsed (ho.pinned_iff.mpr (by omega))
    have hap :=
      (pairwise_append.mp
        ((h.used false).pairwise (h.heaps false).inv.live_apart Span.Apart.symm)).2.2
      b hb _ hslab
    simp only [Span.Apart, Span.stop] at hap
    omega

theorem Balanced.mem_blocks (hvm : w.dev.vm.isNone = true)
    (hb : b ∈ w.dev.used (w.dev.inPinned b.addr)) :
    b ∈ blocks w.buffers (w.dev.inPinned b.addr) := by
  refine (mem_append.mp ((h.used _).mem_iff.mp hb)).resolve_right fun hmem => ?_
  cases hin : w.dev.inPinned b.addr with
  | true => simp [hin, ho.unused] at hmem
  | false =>
    obtain ⟨hslab, haddr⟩ := ho.others (h.mmu ▸ hvm) b (hin ▸ hmem)
    have hsize := ho.pinned_iff.mp hslab
    exact Bool.eq_false_iff.mp hin ((h.inPinned_iff ho _).mpr (by omega))

theorem Balanced.free (hvm : w.dev.vm.isNone = true) (hhost : addr ∉ w.dev.hostMems) :
    ∃ w' r, w.step c (.free addr) = some (w', r) ∧ Balanced o w' ∧
    w.Exact (.free addr) w' r := by
  have hok := h.heaps (w.dev.inPinned addr)
  have hresolve : w.dev.resolve c addr = some addr := by
    rw [Device.resolve, isNone_iff_eq_none.mp hvm]
  have hbuffers := h.buffers hvm
  have hnone : w.dev.vm = o.vm :=
    (isNone_iff_eq_none.mp hvm).trans (isNone_iff_eq_none.mp (h.mmu ▸ hvm)).symm
  have hsame : ∀ b ∈ w.buffers, b.handle = addr →
      b.pinned = w.dev.inPinned addr ∧ b.block.addr = addr ∧
      b.block ∈ w.dev.used (w.dev.inPinned addr) := by
    intro b hb hhandle
    have haddr : b.block.addr = addr := (hbuffers b hb).1.symm.trans hhandle
    have hblock : b.block ∈ blocks w.buffers b.pinned :=
      mem_map_of_mem (mem_filter.mpr ⟨hb, by simp⟩)
    have hin : w.dev.inPinned addr = b.pinned := haddr ▸ h.inPinned ho hblock
    exact ⟨hin.symm, haddr, hin ▸ (h.used _).mem_iff.mpr (mem_append_left _ hblock)⟩
  rcases release_spec hok.inv addr with ⟨he, hno⟩ | ⟨s', b', hs', rfl, hfreed⟩
  · refine ⟨w, .error .invalidValue, ?_, h, fun b hb hhandle => ?_⟩
    · simp [step, Device.call, Device.memFree, hhost, hresolve, he, withMem_self, book]
    · exact absurd (hsame b hb hhandle).2.1 (hno _ (hsame b hb hhandle).2.2)
  have hmem : b' ∈ w.dev.used (w.dev.inPinned b'.addr) := hfreed.live.mem_iff.mpr mem_cons_self
  obtain ⟨bb, hbb, hblock⟩ := mem_map.mp (h.mem_blocks ho hvm hmem)
  have hhandle : (bb.handle == b'.addr) = true := by
    rw [(hbuffers bb (mem_of_mem_filter hbb)).1, hblock]
    exact beq_self_eq_true _
  obtain ⟨x, l₁, l₂, -, hx, hsplit, herase⟩ :=
    exists_of_eraseP (p := fun b : Buffer => b.handle == b'.addr)
    (mem_of_mem_filter hbb) hhandle
  obtain ⟨hxpin, hxaddr, hxlive⟩ := hsame x (by simp [hsplit]) (by simpa using hx)
  have hxblock : x.block = b' := hok.eq_of_addr hxlive hmem hxaddr
  refine ⟨⟨w.dev.withMem (w.dev.inPinned b'.addr) s',
    w.buffers.eraseP (·.handle == b'.addr)⟩, .ok b'.addr, ?_, ?_, ?_⟩
  · simp [step, Device.call, Device.memFree, hhost, hresolve, hs', book]
  · refine h.withMem ⟨fun hpin => hfreed.geometry.trans (hok.geometry hpin), hfreed.inv⟩ rfl
      (fun _ => hnone) ?_ ?_ fun _ b hb => hbuffers b (mem_of_mem_eraseP hb)
    · have hblocks : (blocks w.buffers (w.dev.inPinned b'.addr)).Perm
          (b' :: blocks (w.buffers.eraseP (·.handle == b'.addr)) (w.dev.inPinned b'.addr)) := by
        rw [herase]
        simp only [blocks, hsplit, filter_append, filter_cons, hxpin, decide_true, if_true,
          map_append, map_cons, hxblock]
        exact perm_middle
      exact ((hfreed.live.symm.trans (h.used _)).trans (hblocks.append_right _)).cons_inv
    · rw [herase]
      simp [blocks, hsplit, hxpin]
  · intro b hb hhandle
    obtain ⟨hpin, haddr, hlive⟩ := hsame b hb hhandle
    obtain ⟨hused, hother⟩ := withMem_used (p := w.dev.inPinned b'.addr) (s := s') w.dev
    rw [hpin, hok.eq_of_addr hlive hmem haddr, (hbuffers b hb).2, hused]
    exact ⟨rfl, hfreed.live, hother, .refl _⟩

omit h ho in
theorem identityMapped_ok {d d' : Device} {size a : ℕ}
    (hd : d.identityMapped c addr size = some (d', .ok a)) :
    ∃ vm : Option VMManager, d' = { d with vm } ∧ vm.isNone = d.vm.isNone ∧ a = addr := by
  unfold Device.identityMapped at hd
  cases hvm : d.vm with
  | none =>
    simp only [hvm, some.injEq, Prod.mk.injEq, Except.ok.injEq] at hd
    exact ⟨none, by rw [← hvm]; exact hd.1.symm, rfl, hd.2.symm⟩
  | some v =>
    simp only [hvm, bind_eq_bind, bind_eq_some_iff] at hd
    obtain ⟨⟨v', ok⟩, -, hd⟩ := hd
    cases ok with
    | false => simp at hd
    | true =>
      cases hd
      exact ⟨some v', rfl, rfl, rfl⟩

omit h ho in
theorem Reaches.ok {a : MemCall} {x : Call} {s' : MemoryAllocator} {r : Option ℕ}
    (hc : w.Reaches c a p x) (hs : MemAlloc.call (w.dev.mem p) x = some (s', .ok r))
    (hplain : w.dev.vm = none → (w.dev.call c a).any (·.2.toBool) = true) :
    ∃ d r, w.dev.call c a = some (d, .ok r) := by
  have hno : ¬(MemAlloc.call (w.dev.mem p) x).any (!·.2.toBool) = true := by
    simp [hs, Except.toBool]
  have hany : (w.dev.call c a).any (·.2.toBool) = true :=
    hc.2.elim (fun hnone => hplain (isNone_iff_eq_none.mp hnone)) fun hmap => hmap.resolve_right hno
  match hcall : w.dev.call c a with
  | none | some (_, .error _) => simp [hcall, Except.toBool] at hany
  | some (d, .ok r) => exact ⟨d, r, rfl⟩

theorem Balanced.alloc {size flags : ℕ} {outAddr : Bool} {host : Option ℕ}
    (hc : w.Accounts c (.alloc size flags outAddr host)) :
    ∃ w' r, w.step c (.alloc size flags outAddr host) = some (w', r) ∧
      Balanced o w' ∧ w.Exact (.alloc size flags outAddr host) w' r := by
  by_cases hargs : outAddr = false ∨ size = 0
  · exact ⟨w, .error .invalidValue, by simp [step, Device.call, Device.memAlloc, hargs, book], h,
      rfl, rfl⟩
  by_cases hflag : flags.testBit 4 = true
  · cases host with
    | none =>
      exact ⟨w, .error .hostMemory, by simp [step, Device.call, Device.memAlloc, hargs, hflag,
        book], h, rfl, rfl⟩
    | some a =>
      refine ⟨⟨{ w.dev with hostMems := w.dev.hostMems.insert a }, w.buffers⟩, .ok a, ?_, ?_,
        trivial⟩
      · simp [step, Device.call, Device.memAlloc, hargs, hflag, book]
      · exact { h with }
  have hreach := ((hc.resolve_left fun ha => hargs (.inl ha)).resolve_left fun ha =>
    hargs (.inr ha)).resolve_left hflag
  rcases (h.heaps _).allocate ho.bound hreach.1 with ⟨e, he⟩ | ⟨s', b, hs', hok, hlive⟩
  · exact ⟨w, .error .outOfDeviceMemory, by
      simp [step, Device.call, Device.memAlloc, hargs, hflag, he, withMem_self, book], h,
        rfl, rfl⟩
  obtain ⟨d, a, hcall⟩ := hreach.ok hs' fun hnone => by
    simp [Device.call, Device.memAlloc, hargs, hflag, hs', Device.identityMapped, Device.withMem,
      hnone, Except.toBool]
  have hd : ∃ vm : Option VMManager, d = { w.dev.withMem (w.dev.fromPinned flags) s' with vm } ∧
      vm.isNone = w.dev.vm.isNone ∧ (w.dev.vm.isNone = true → a = b.addr) := by
    simp only [Device.call, Device.memAlloc, if_neg hargs, if_neg hflag, hs', bind_eq_bind,
      bind_some] at hcall
    split_ifs at hcall
    · obtain ⟨vm, hd, hmmu, ha⟩ := identityMapped_ok hcall
      exact ⟨vm, hd, hmmu, fun _ => ha⟩
    · cases hvm : w.dev.vm with
      | none =>
        rw [hvm] at hcall
        cases hcall
        exact ⟨none, by rw [← hvm]; rfl, rfl, fun _ => rfl⟩
      | some v =>
        simp only [hvm, bind_eq_some_iff] at hcall
        obtain ⟨⟨v', va⟩, -, hd⟩ := hcall
        cases hd
        exact ⟨some v', rfl, rfl, nofun⟩
  obtain ⟨vm, rfl, hmmu, ha⟩ := hd
  exact ⟨_, .ok a, by simp [step, hcall, book, hflag], h.grant hok hlive hmmu ha, trivial⟩

theorem Balanced.reserve {size : ℕ} (hc : w.Accounts c (.reserve addr size)) :
    ∃ w' r, w.step c (.reserve addr size) = some (w', r) ∧ Balanced o w' ∧
    w.Exact (.reserve addr size) w' r := by
  by_cases hsize : size = 0
  · exact ⟨w, .error .invalidValue, by simp [step, Device.call, Device.memReserve, hsize, book],
      h, rfl, rfl⟩
  have hreach := hc.resolve_left hsize
  rcases (h.heaps _).reserve ho.bound hreach.1 with ⟨e, he⟩ | ⟨s', b, hs', hok, hlive, rfl⟩
  · exact ⟨w, .error .invalidValue, by
      simp [step, Device.call, Device.memReserve, hsize, he, withMem_self, book], h, rfl, rfl⟩
  obtain ⟨d, a, hcall⟩ := hreach.ok hs' fun hnone => by
    simp [Device.call, Device.memReserve, hsize, hs', Device.identityMapped, Device.withMem, hnone,
      Except.toBool]
  have hmapped := hcall
  simp only [Device.call, Device.memReserve, if_neg hsize, hs', bind_eq_bind, bind_some] at hmapped
  obtain ⟨vm, rfl, hmmu, rfl⟩ := identityMapped_ok hmapped
  exact ⟨_, .ok b.addr, by simp [step, hcall, book], h.grant hok hlive hmmu fun _ => rfl,
    trivial⟩

end

end

theorem Balanced.step (ho : o.Opened) (a : MemCall) (h : Balanced o w) (hc : w.Accounts c a) :
    ∃ w' r, w.step c a = some (w', r) ∧ Balanced o w' ∧ w.Exact a w' r := by
  cases a with
  | alloc size flags outAddr host => exact h.alloc ho hc
  | reserve addr size => exact h.reserve ho hc
  | free addr =>
    by_cases hhost : addr ∈ w.dev.hostMems
    · rw [Accounts, if_pos hhost] at hc
      refine ⟨⟨{ w.dev with hostMems := w.dev.hostMems.erase addr }, w.buffers⟩, .ok addr,
        ?_, ?_, ?_⟩
      · simp [Ledger.step, Device.call, Device.memFree, hhost, book]
      · exact { h with }
      · exact fun b hb hhandle => absurd hhandle (hc b hb)
    · rw [Accounts, if_neg hhost] at hc
      exact h.free ho hc hhost

end Ledger

section
variable {c : VMConfig} {requested : ℕ} {vm : Option VMManager} {o : Device}

theorem Device.new_opened (h : Device.new c requested = some o) : o.Opened := by
  have hblock : ∃ k < 32, 64 = 2 ^ k := ⟨6, by decide, rfl⟩
  have hpage : ∃ k < 32, ptSize = 2 ^ k := ⟨12, by decide, rfl⟩
  have hmem := c.size_lt
  have hsize : resolvePinnedSize c requested ≤ c.globalMemSize - c.userBase := by
    simp only [resolvePinnedSize, ptSize]
    omega
  have halign : alignUp64 (resolvePinnedSize c requested) ptSize =
      resolvePinnedSize c requested := by
    rw [show ptSize = 2 ^ 12 from rfl, alignUp64_eq (by decide) (by omega)]
    simp only [resolvePinnedSize, ptSize]
    omega
  have hheaps : ∀ {g : Geometry} {s : MemoryAllocator} (p : Bool),
      PoolOk ⟨g.baseAddress, g.capacity, ptSize, 64⟩ false s →
      PoolOk ⟨g.baseAddress, g.capacity, ptSize, 64⟩ p
        (if p then .new ⟨g.baseAddress, g.capacity, ptSize, 64⟩ else s) := by
    rintro g s (_ | _) hs
    · exact hs
    · exact ⟨fun _ => rfl, inv_new hblock hpage⟩
  simp only [Device.new] at h
  split_ifs at h with hzero
  · cases h
    exact ⟨by simp, by simp,
      fun p => hheaps (g := ⟨0, 0, 0, 0⟩) p ⟨nofun, inv_new hblock hpage⟩,
      nofun, fun _ => nofun, rfl⟩
  have hnew : Inv (fun r => false = true →
      Geometry.Holding ⟨c.userBase, resolvePinnedSize c requested, ptSize, 64⟩ r)
      (.new ⟨c.userBase, c.globalMemSize - c.userBase, ptSize, 64⟩) := inv_new hblock hpage
  have hround : resolvePinnedSize c requested + ptSize ≤ 2 ^ 64 := by
    simp only [ptSize]
    omega
  have hw : c.userBase + alignUp64 (resolvePinnedSize c requested) ptSize < 2 ^ 64 := by omega
  rcases reserve_spec hnew hround hw (fun _ => nofun) with ⟨e, he⟩ |
    ⟨s', b, hs', -, -, hserved, rfl⟩
  · simp only [he, bind_eq_bind, bind_some] at h
    cases h
    exact ⟨by simp, by simp,
      fun p => hheaps (g := ⟨0, 0, 0, 0⟩) p ⟨nofun, inv_new hblock hpage⟩,
      nofun, fun _ => nofun, rfl⟩
  simp only [hs', bind_eq_bind, bind_some] at h
  cases h
  have hlive : s'.live = [⟨c.userBase, resolvePinnedSize c requested⟩] := by
    rw [← halign]
    exact perm_singleton.mp hserved.live
  have hmem (b : Span) (hb : b ∈ s'.live) : b =
      ⟨c.userBase, resolvePinnedSize c requested⟩ := by
    simpa [hlive] using hb
  refine ⟨by simp only; omega, by simp only [true_iff]; omega, fun p =>
    hheaps (g := ⟨c.userBase, resolvePinnedSize c requested, 0, 0⟩) p ⟨nofun, hserved.inv⟩,
      fun _ => ?_,
    fun _ b hb => ⟨rfl, by rw [hmem b hb]⟩, rfl⟩
  change _ ∈ s'.live
  rw [hlive]
  exact mem_singleton_self _

theorem Device.deviceOpen_opened (h : Device.deviceOpen c requested vm = some o) : o.Opened := by
  obtain ⟨d, hd, h⟩ := bind_eq_some_iff.mp h
  have hopened := Device.new_opened hd
  cases vm with
  | none =>
    cases h
    exact hopened
  | some v =>
    have hinv := (hopened.heaps false).inv
    have htable := c.table_le
    have hsize := c.size_lt
    obtain ⟨k, hk, hpage⟩ := hinv.pagePow
    have hpow : 2 ^ k < 2 ^ 32 := Nat.pow_lt_pow_right (by decide) hk
    have hround : c.ptSizeLimit + (d.mem false).pageAlign ≤ 2 ^ 64 := by omega
    have hw : c.pageTableBase + alignUp64 c.ptSizeLimit (d.mem false).pageAlign < 2 ^ 64 := by
      have hdiv := Nat.div_mul_le_self (c.ptSizeLimit + 2 ^ k - 1) (2 ^ k)
      rw [hpage, alignUp64_eq (by omega) (by omega)]
      omega
    rcases reserve_spec hinv hround hw fun _ => nofun with ⟨e, he⟩ | ⟨s', b, hs', -, -,
      hserved, -⟩
    · simp [he] at h
    simp only [hs', bind_eq_bind, bind_some] at h
    cases h
    refine ⟨hopened.bound, hopened.pinned_iff, fun p => ?_, fun hpin => ?_, nofun,
      hopened.unused⟩
    · cases p with
      | false => exact (hopened.heaps false).served hserved
      | true => exact hopened.heaps true
    · exact hserved.live.mem_iff.mpr (mem_cons_of_mem _ (hopened.slabUsed hpin))

/-- Without an MMU, or with one that maps every block and of which nothing is freed, after any
sequence of calls: the next call is exact, and when no buffer is left the heaps hold what they held
when the device was opened. -/
theorem memory_accounted (ho : Device.deviceOpen c requested vm = some o) {calls : List MemCall}
    (hc : Along (Ledger.step c) (Ledger.Accounts c) ⟨o, []⟩ calls) :
    ∃ w results, run (Ledger.step c) ⟨o, []⟩ calls = some (w, results) ∧
      (∀ a, w.Accounts c a → ∃ w' r, w.step c a = some (w', r) ∧ w.Exact a w' r) ∧
      (w.buffers = [] → (∀ p, (w.dev.used p).Perm (o.used p)) ∧
        w.dev.virtualUsed = o.virtualUsed) := by
  have hopened := Device.deviceOpen_opened ho
  have hstart : Ledger.Balanced o ⟨o, []⟩ :=
    ⟨rfl, rfl, rfl, rfl, fun _ => rfl, hopened.heaps, fun _ => .refl _, fun _ => nofun⟩
  obtain ⟨w, results, hrun, hw⟩ := run_keeps (fun w a hw hc => by
    obtain ⟨w', r, hstep, hw', -⟩ := Ledger.Balanced.step (c := c) hopened a hw hc
    exact ⟨w', r, hstep, hw'⟩) hstart hc
  refine ⟨w, results, hrun, fun a ha => ?_, fun hnone => ⟨fun p => ?_, ?_⟩⟩
  · obtain ⟨w', r, hstep, -, hexact⟩ := hw.step hopened a ha
    exact ⟨w', r, hstep, hexact⟩
  · have hused := hw.used p
    rwa [Ledger.blocks, hnone] at hused
  · rw [Device.virtualUsed, hw.vm hnone]
    rfl

end

def device32 : VMConfig := .build true .sv32

theorem memory_accounted_slab : ∃ o, Device.deviceOpen device32 0x2000 none = some o ∧
    ∃ w results, run (Ledger.step device32) ⟨o, []⟩
        [.alloc 100 1 true none, .alloc 64 8 true none, .reserve 0x20000 5000, .free 0x10000,
          .free 0x12000, .free 0x20000] = some (w, results) ∧
      (∀ a, w.Accounts device32 a →
        ∃ w' r, w.step device32 a = some (w', r) ∧ w.Exact a w' r) ∧
      (w.buffers = [] → (∀ p, (w.dev.used p).Perm (o.used p)) ∧
        w.dev.virtualUsed = o.virtualUsed) :=
  ⟨(Device.deviceOpen device32 0x2000 none).get (by decide +kernel), (some_get _).symm,
    memory_accounted (some_get _).symm (by decide +kernel)⟩

/-- On a device with an MMU a buffer that was freed still has its virtual range. -/
theorem freed_buffer_keeps_range : ((VMManager.init device32 false id).bind fun v => do
      let o ← Device.deviceOpen device32 0 (some v.1)
      let (w, results) ← run (Ledger.step device32) ⟨o, []⟩ [.alloc 64 1 true none,
        .free 0x10000]
      some (v.2, results.map Except.toOption, w.buffers.length, o.virtualUsed, w.dev.virtualUsed)) =
    some (true, [some 0x10000, some 0x10000], 0, [⟨0, 0x10000⟩, ⟨0xF0000000, 0x10000000⟩],
      [⟨0, 0x10000⟩, ⟨0x10000, 64⟩, ⟨0xF0000000, 0x10000000⟩]) := by
  decide +kernel

end VortexGpu.Vm

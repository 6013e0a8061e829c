import VortexGpu.MemAlloc
import VortexGpu.PageTable

/-!
# The virtual memory manager of the host

`VMManager` keeps a shadow of the page tables, here the list of the entries that have been written,
and two allocators, for the tables and for virtual addresses. `none` is a failed assertion; the
assertions of `vm.cpp` itself are there only in a build with assertions.
-/

namespace VortexGpu.Vm
open MemAlloc Word ByteMem Option

structure VMConfig where
  mode : AddrMode
  userBase : ℕ
  pageTableBase : ℕ
  ptSizeLimit : ℕ
  globalMemSize : ℕ
  asserts : Bool
  user_le : userBase ≤ pageTableBase
  table_le : pageTableBase + ptSizeLimit ≤ globalMemSize
  size_lt : globalMemSize < 2 ^ 63

namespace VMConfig

/-- The constants of `VX_types.toml` and `common.h` for `XLEN` 32 and 64. -/
def build (asserts : Bool) : AddrMode → VMConfig
  | .sv32 =>
    ⟨.sv32, 0x10000, 0xF0000000, 2 ^ 23, 0x100000000, asserts, by decide, by decide, by decide⟩
  | .sv39 =>
    ⟨.sv39, 0x10000, 0xF0000000, 2 ^ 25, 0x200000000, asserts, by decide, by decide, by decide⟩

variable (c : VMConfig)

def assert (p : Prop) [Decidable p] : Option Unit :=
  if c.asserts = true ∧ ¬p then none else some ()

/-- `VX_VM_ADDR_MODE == SV32` keeps virtual addresses within 32 bits. -/
def virtualMemSize : ℕ :=
  match c.mode with
  | .sv32 => min c.globalMemSize (2 ^ 32) - c.userBase
  | .sv39 => c.globalMemSize - c.userBase

def vaRangeEnd : ℕ :=
  match c.mode with
  | .sv32 => min c.pageTableBase (2 ^ 32 - 1)
  | .sv39 => c.pageTableBase

def levelSize (l : ℕ) : ℕ := ptSize * (ptSize / c.mode.pteSize) ^ l

def leafLevel (cur remaining : ℕ) : ℕ :=
  ((List.range c.mode.ptLevel).reverse.find? fun l =>
    0 < l ∧ cur % c.levelSize l = 0 ∧ c.levelSize l ≤ remaining).getD 0

def newPte (address flags : ℕ) : Option ℕ :=
  if c.mode = .sv32 ∧ address >>> 32 ≠ 0 then none
  else some (shl64 (address >>> pageLog2Size) 10 ||| flags)

end VMConfig

structure VMManager where
  satp : Option Satp
  pageTableMem : MemoryAllocator
  virtualMem : MemoryAllocator
  addrMapping : List (ℕ × ℕ)
  shadow : List (ℕ × ℕ)
  randomizeVa : Bool
  rng : ℕ → ℕ
  drawn : ℕ

def pteFlagsFromAccess (flags : ℕ) : ℕ := if flags.testBit 1 then 0b111 else 0b011

namespace VMManager
variable (c : VMConfig)

section
variable (v : VMManager)

def readPte (addr : ℕ) : ℕ := (v.shadow.lookup addr).getD 0

def writePte (addr value : ℕ) : VMManager :=
  { v with shadow := (addr, value % 256 ^ c.mode.pteSize) :: v.shadow }

def mem : Mem := fun a =>
  (bytesLE c.mode.pteSize (v.readPte (a / c.mode.pteSize * c.mode.pteSize))).getD
    (a % c.mode.pteSize) 0

def pageTableWalk (va : ℕ) : Option (Except WalkFault ℕ) :=
  Vm.pageTableWalk c.mode (v.mem c) v.satp va

/-- Without room the address of the last table stays in place. -/
def allocPageTable (ptAddr : ℕ) : Option (VMManager × ℕ × Bool) := do
  match ← v.pageTableMem.allocate ptSize true with
  | (mem, .ok (some a)) =>
    some ({ v with
      pageTableMem := mem
      shadow := v.shadow.filter fun e => e.1 / ptSize ≠ a / ptSize }, a, true)
  | (mem, _) => some ({ v with pageTableMem := mem }, ptAddr, false)

end

/-- One level of `update_page_table`: the return code, or the table of the next level. -/
def updateEntry (ppn vpn flag leaf i basePpn idx ptAddr : ℕ) (v : VMManager) :
    Option (VMManager × (Bool ⊕ ℕ × ℕ)) := do
  let addr := pteAddr c.mode basePpn idx
  let bytes := v.readPte addr
  let pte := Pte.ofBytes c.mode bytes
  let valid := pte.v && bytes % 2 ^ 32 != 0xbaadf00d
  if valid && !pte.interior then
    let span := 2 ^ (i * c.mode.vpnBits)
    some (v, .inl ((pte.ppn &&& not64 (span - 1)) ||| (vpn &&& (span - 1)) == ppn))
  else if valid then some (v, .inr (pte.ppn, ptAddr))
  else if i = leaf then do
    some (v.writePte c addr (← c.newPte (shl64 ppn pageLog2Size) flag), .inl true)
  else do
    let (v, ptAddr, _) ← v.allocPageTable ptAddr
    some (v.writePte c addr (← c.newPte ptAddr 1), .inr (ptAddr >>> pageLog2Size, ptAddr))

def updateFrom (ppn vpn flag leaf : ℕ) (idx : ℕ → ℕ) (i basePpn ptAddr : ℕ)
    (v : VMManager) : Option (VMManager × Bool) := do
  match ← v.updateEntry c ppn vpn flag leaf i basePpn (idx i) ptAddr with
  | (v, .inl ok) => some (v, ok)
  | (v, .inr (basePpn, ptAddr)) =>
    match i with
    | 0 => some (v, true)
    | i + 1 => updateFrom ppn vpn flag leaf idx i basePpn ptAddr v

def updatePageTable (ppn vpn flag leaf : ℕ) (v : VMManager) : Option (VMManager × Bool) := do
  c.assert (ppn >>> (if c.mode = .sv39 then 44 else 20) = 0 ∧
    vpn >>> (if c.mode = .sv39 then 27 else 20) = 0)
  c.assert (leaf < c.mode.ptLevel)
  let idx ← VAddr.new c.mode (shl64 vpn pageLog2Size)
  v.updateFrom c ppn vpn flag leaf idx (c.mode.ptLevel - 1) (getBasePpn v.satp) 0

/-- The loop of `install_identity_map`; it does not end if the cursor wraps around. -/
def identityLoop (stop : ℕ) : ℕ → ℕ → VMManager → Option (VMManager × Bool)
  | 0, _, _ => none
  | fuel + 1, cur, v =>
    if cur < stop then do
      let leaf := c.leafLevel cur (stop - cur)
      let vpn := cur >>> pageLog2Size
      let (v, ok) ← v.updatePageTable c vpn vpn 0b1111 leaf
      if ok then identityLoop stop fuel (add64 cur (c.levelSize leaf)) v else some (v, false)
    else some (v, true)

def installIdentityMap (addr size : ℕ) (v : VMManager) : Option (VMManager × Bool) := do
  let (mem, _) ← v.virtualMem.reserve addr size
  identityLoop c (add64 addr size) (size / ptSize + 2) addr { v with virtualMem := mem }

def drawVa (size numPages : ℕ) : ℕ → VMManager → Option (VMManager × Option ℕ)
  | 0, v => some (v, none)
  | attempts + 1, v => do
    let maxPages := sub64 ((c.vaRangeEnd - c.userBase) >>> pageLog2Size) numPages
    let va := c.userBase + (v.rng v.drawn % maxPages) <<< pageLog2Size
    let v := { v with drawn := v.drawn + 1 }
    if v.addrMapping.all fun e =>
      !((List.range numPages).any fun i => (va >>> pageLog2Size) + i == e.2) then do
      match ← v.virtualMem.reserve va size with
      | (mem, .ok _) => some ({ v with virtualMem := mem }, some va)
      | (mem, .error _) => drawVa size numPages attempts { v with virtualMem := mem }
    else drawVa size numPages attempts v

/-- The virtual page of a buffer; a failed allocation leaves address 0. -/
def pickVpn (size numPages basePpn : ℕ) (v : VMManager) : Option (VMManager × ℕ) :=
  match v.addrMapping.lookup basePpn with
  | some vpn => some (v, vpn)
  | none => do
    let (v, drawn) ← if v.randomizeVa then v.drawVa c size numPages 1000 else some (v, none)
    match drawn with
    | some va => some (v, va >>> pageLog2Size)
    | none => do
      match ← v.virtualMem.allocate size true with
      | (mem, .ok (some va)) => some ({ v with virtualMem := mem }, va >>> pageLog2Size)
      | (mem, _) => some ({ v with virtualMem := mem }, 0)

/-- The pages without a mapping get one; the return code of the update is not looked at. -/
def mapPages (flags basePpn baseVpn : ℕ) (v : VMManager) (pages : List ℕ) : Option VMManager :=
  pages.foldlM (fun v i =>
    if (v.addrMapping.lookup (basePpn + i)).isSome then some v
    else do
      let (v, _) ← v.updatePageTable c (basePpn + i) (baseVpn + i) (pteFlagsFromAccess flags) 0
      some { v with addrMapping := (basePpn + i, baseVpn + i) :: v.addrMapping }) v

def phyToVirtMap (size pa flags : ℕ) (v : VMManager) : Option (VMManager × ℕ) :=
  if needTrans v.satp then do
    let numPages := add64 size (ptSize - 1) >>> pageLog2Size
    let (v, vpn) ← v.pickVpn c size numPages (pa >>> pageLog2Size)
    let va := shl64 vpn pageLog2Size ||| pa &&& (ptSize - 1)
    let v ← v.mapPages c flags (pa >>> pageLog2Size) vpn (List.range numPages)
    c.assert (v.pageTableWalk c va = some (.ok pa))
    some (v, va)
  else some (v, pa)

def init (randomizeVa : Bool) (rng : ℕ → ℕ) : Option (VMManager × Bool) := do
  let v : VMManager :=
    { satp := none
      pageTableMem := .new ⟨c.pageTableBase, c.ptSizeLimit, ptSize, 64⟩
      virtualMem := .new ⟨c.userBase, c.virtualMemSize, ptSize, 64⟩
      addrMapping := [], shadow := [], randomizeVa, rng, drawn := 0 }
  let (v, ptAddr, ok) ← v.allocPageTable 0
  if ok then do
    let v := { v with satp := some (← Satp.ofAddress c.mode ptAddr 0) }
    let (v, ok) ← v.installIdentityMap c 0 c.userBase
    if ok then v.installIdentityMap c c.pageTableBase (c.globalMemSize - c.pageTableBase)
    else some (v, false)
  else some (v, false)

/-! Nothing but `init` sets the root register. -/

section Root
variable {c} {v v' : VMManager} {ppn vpn flag leaf i basePpn idx ptAddr : ℕ}

theorem allocPageTable_satp {r : ℕ × Bool} (h : v.allocPageTable ptAddr = some (v', r)) :
    v'.satp = v.satp := by
  simp only [allocPageTable, bind_eq_bind, bind_eq_some_iff] at h
  obtain ⟨r, _, h⟩ := h
  split at h <;> cases h <;> rfl

theorem updateEntry_satp {r : Bool ⊕ ℕ × ℕ}
    (h : v.updateEntry c ppn vpn flag leaf i basePpn idx ptAddr = some (v', r)) :
    v'.satp = v.satp := by
  simp only [updateEntry, bind_eq_bind] at h
  split_ifs at h
  · cases h
    rfl
  · cases h
    rfl
  · obtain ⟨pte, _, h⟩ := bind_eq_some_iff.mp h
    cases h
    rfl
  · obtain ⟨⟨u, r⟩, hu, h⟩ := bind_eq_some_iff.mp h
    obtain ⟨pte, _, h⟩ := bind_eq_some_iff.mp h
    cases h
    exact (allocPageTable_satp hu : u.satp = v.satp)

theorem updateFrom_satp {idx : ℕ → ℕ} {ok : Bool}
    (h : v.updateFrom c ppn vpn flag leaf idx i basePpn ptAddr = some (v', ok)) :
    v'.satp = v.satp := by
  induction i generalizing v basePpn ptAddr with
  | zero =>
    rw [updateFrom] at h
    obtain ⟨⟨u, r | r⟩, hu, h⟩ := bind_eq_some_iff.mp h <;> cases h <;>
      exact updateEntry_satp hu
  | succ i ih =>
    rw [updateFrom] at h
    obtain ⟨⟨u, r | r⟩, hu, h⟩ := bind_eq_some_iff.mp h
    · cases h
      exact updateEntry_satp hu
    · exact (ih h).trans (updateEntry_satp hu)

theorem updatePageTable_satp {ok : Bool}
    (h : v.updatePageTable c ppn vpn flag leaf = some (v', ok)) : v'.satp = v.satp := by
  simp only [updatePageTable, bind_eq_bind, bind_eq_some_iff] at h
  obtain ⟨_, _, _, _, _, _, h⟩ := h
  exact updateFrom_satp h

theorem identityLoop_satp {stop fuel cur : ℕ} {ok : Bool}
    (h : identityLoop c stop fuel cur v = some (v', ok)) : v'.satp = v.satp := by
  induction fuel generalizing v cur with
  | zero => cases h
  | succ fuel ih =>
    simp only [identityLoop, bind_eq_bind] at h
    split_ifs at h
    · obtain ⟨⟨u, b⟩, hu, h⟩ := bind_eq_some_iff.mp h
      split_ifs at h
      · exact (ih h).trans (updatePageTable_satp hu)
      · cases h
        exact updatePageTable_satp hu
    · cases h
      rfl

theorem installIdentityMap_satp {addr size : ℕ} {ok : Bool}
    (h : v.installIdentityMap c addr size = some (v', ok)) : v'.satp = v.satp := by
  simp only [installIdentityMap, bind_eq_bind, bind_eq_some_iff] at h
  obtain ⟨r, _, h⟩ := h
  have hkept := identityLoop_satp h
  exact hkept

/-- The root table is the first page of the region of the tables. -/
theorem init_satp {asserts randomizeVa : Bool} {m : AddrMode} {rng : ℕ → ℕ} {ok : Bool}
    {satp : Satp}
    (h : init (.build asserts m) randomizeVa rng = some (v, ok)) (hs : v.satp = some satp) :
    Satp.ofAddress m 0xF0000000 0 = some satp := by
  simp only [init, bind_eq_bind, bind_eq_some_iff] at h
  obtain ⟨⟨u, a, done⟩, hu, h⟩ := h
  have hroot : a = 0xF0000000 := by
    simp only [allocPageTable, bind_eq_bind, bind_eq_some_iff] at hu
    obtain ⟨r, hr, hu⟩ := hu
    have hfirst : r.2 = .ok (some 0xF0000000) := by
      cases m <;> cases asserts <;>
        exact Option.some.inj ((congrArg (Option.map Prod.snd) hr).symm.trans (by decide +kernel))
    split at hu
    · cases hu
      cases hfirst
      rfl
    · simp_all
  have hnone : u.satp = none := allocPageTable_satp hu
  split_ifs at h with hdone
  · obtain ⟨root, hr, ⟨w, ok₁⟩, hw, h⟩ := by
      simpa only [bind_eq_some_iff] using h
    have hsatp : v.satp = some root := by
      split_ifs at h
      · exact (installIdentityMap_satp h).trans (installIdentityMap_satp hw)
      · cases h
        exact installIdentityMap_satp hw
    rw [hroot] at hr
    cases hsatp.symm.trans hs
    cases m <;> exact hr
  · cases h
    rw [hnone] at hs
    cases hs

end Root

end VMManager

end VortexGpu.Vm

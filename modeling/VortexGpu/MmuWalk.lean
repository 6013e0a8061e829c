import VortexGpu.Mmu
import VortexGpu.VmManager
import Mathlib.Tactic.NormNum

/-!
# The three page-table walkers

`leafFrom` is what a walk is for: the leaf entry a virtual address leads to. The walker of the
memory management unit computes it entry by entry over cache-line responses. Where the host's walk
returns an address, all three walkers return it, as long as the root survives being packed into the
root register, whose page number has 44 bits in the 39-bit mode. The root of the tables of the host
does.
-/

namespace VortexGpu.Simx
open Word ByteMem Vm

theorem shiftRight_lt {address : ℕ} (h : address < 2 ^ 64) :
    address >>> pageLog2Size < 2 ^ 52 := by
  rw [pageLog2Size, Nat.shiftRight_eq_div_pow]
  omega

theorem or_eq_add {a k b : ℕ} (h : b < 2 ^ k) : a * 2 ^ k ||| b = a * 2 ^ k + b := by
  rw [mul_comm, Nat.two_pow_add_eq_or_of_lt h]

theorem pack_sv32 {ppn : ℕ} (h : ppn < 2 ^ 20) :
    shl64 1 31 ||| shl64 0 22 ||| ppn = 2 ^ 31 + ppn := by
  have h₁ : shl64 1 31 ||| shl64 0 22 = 1 * 2 ^ 31 := by decide
  rw [h₁, or_eq_add (by omega)]
  omega

theorem pack_sv39 {ppn : ℕ} (h : ppn < 2 ^ 52) :
    shl64 8 60 ||| shl64 0 44 ||| ppn = 2 ^ 63 + ppn := by
  have h₁ : shl64 8 60 ||| shl64 0 44 = 1 * 2 ^ 63 := by decide
  rw [h₁, or_eq_add (by omega)]
  omega

theorem ofValue_ofAddress {m : AddrMode} {address : ℕ} {s : Satp} (ha : address < 2 ^ 64)
    (h : Satp.ofAddress m address 0 = some s) :
    s.mode = m.value ∧ s.ppn = address >>> pageLog2Size ∧ s.satp ≠ 0 ∧
      (Satp.ofValue m s.satp).mode = m.value ∧
      (Satp.ofValue m s.satp).ppn = if m = .sv32 then s.ppn else s.ppn % 2 ^ 44 := by
  have hppn := shiftRight_lt ha
  cases m with
  | sv32 =>
    simp only [Satp.ofAddress, AddrMode.value] at h
    split at h
    · rename_i hz
      have hsmall : address >>> pageLog2Size < 2 ^ 20 := by
        rw [Nat.shiftRight_eq_div_pow] at hz
        rw [pageLog2Size, Nat.shiftRight_eq_div_pow]
        omega
      rw [pack_sv32 hsmall] at h
      cases h
      simp only [Satp.ofValue, bits_eq, AddrMode.value, if_true, true_and]
      generalize address >>> pageLog2Size = ppn at hsmall
      norm_num
      omega
    · simp at h
  | sv39 =>
    simp only [Satp.ofAddress, AddrMode.value] at h
    rw [pack_sv39 hppn] at h
    cases h
    simp only [Satp.ofValue, bits_eq, AddrMode.value, reduceCtorEq, if_false, true_and]
    generalize address >>> pageLog2Size = ppn at hppn
    norm_num
    omega

def vpnAt (m : AddrMode) (va level : ℕ) : ℕ :=
  (va >>> (pageLog2Size + level * m.vpnBits)) &&& (2 ^ m.vpnBits - 1)

theorem vpnAt_eq_new {m : AddrMode} {va : ℕ} {vpn : ℕ → ℕ} (h : VAddr.new m va = some vpn)
    {i : ℕ} (hi : i < m.ptLevel) : vpn i = vpnAt m va i := by
  cases m with
  | sv32 =>
    simp only [VAddr.new] at h
    split at h
    · cases h
      match i, hi with
      | 0, _ => rfl
      | 1, _ => rfl
    · simp at h
  | sv39 =>
    cases h
    match i, hi with
    | 0, _ => rfl
    | 1, _ => rfl
    | 2, _ => rfl

def pteAt (m : AddrMode) (mem : Mem) (va level base : ℕ) : Pte :=
  Pte.ofBytes m (readPte m mem (pteAddr m base (vpnAt m va level)))

structure Leaf where
  ppn : ℕ
  level : ℕ
  flags : ℕ
deriving DecidableEq, Repr

def leafFrom (m : AddrMode) (mem : Mem) (va level base : ℕ) : Option Leaf :=
  let pte := pteAt m mem va level base
  if pte.invalid then none
  else if pte.interior then
    match level with
    | 0 => none
    | level + 1 => leafFrom m mem va level pte.ppn
  else some ⟨pte.ppn, level, pte.flags⟩

variable {m : AddrMode} {mem : Mem} {va : ℕ}

section Leaf
variable {level base : ℕ}

theorem leafFrom_of_invalid (h : (pteAt m mem va level base).invalid = true) :
    leafFrom m mem va level base = none := by
  unfold leafFrom
  simp [h]

theorem leafFrom_of_leaf (hv : (pteAt m mem va level base).invalid = false)
    (hl : (pteAt m mem va level base).interior = false) : leafFrom m mem va level base =
      some ⟨(pteAt m mem va level base).ppn, level, (pteAt m mem va level base).flags⟩ := by
  unfold leafFrom
  simp [hv, hl]

theorem leafFrom_zero (hi : (pteAt m mem va 0 base).interior = true) :
    leafFrom m mem va 0 base = none := by
  unfold leafFrom
  simp [hi]

theorem leafFrom_succ (hv : (pteAt m mem va (level + 1) base).invalid = false)
    (hi : (pteAt m mem va (level + 1) base).interior = true) : leafFrom m mem va (level + 1) base =
      leafFrom m mem va level (pteAt m mem va (level + 1) base).ppn := by
  rw [leafFrom]
  simp [hv, hi]

end Leaf

theorem steps_agree {b : ℕ} {step : Step} (h : hostStep m b = .ok step) :
    cpStep m b = some step ∧ (Pte.ofBytes m b).invalid = false ∧
      step = if (Pte.ofBytes m b).interior then .next (Pte.ofBytes m b).ppn
        else .leaf (Pte.ofBytes m b).ppn := by
  simp only [hostStep] at h
  split at h
  · simp at h
  split at h
  · simp at h
  rename_i hinvalid
  have hv : (Pte.ofBytes m b).v = true := by
    simp only [Pte.invalid, Bool.or_eq_true, not_or] at hinvalid
    simpa using hinvalid.1
  split at h
  · rename_i hinterior
    cases h
    simp [cpStep, hv, hinterior, hinvalid]
  · rename_i hleaf
    split at h
    · simp at h
    · cases h
      simp [cpStep, hv, hleaf, hinvalid]

theorem walk_of_host {vpn : ℕ → ℕ} {pa : ℕ} (hv : VAddr.new m va = some vpn) {i base : ℕ}
    (hi : i < m.ptLevel) (h : pageTableWalkFrom m mem vpn va i base = .ok pa) :
    cpTranslateFrom m mem vpn va i base = pa ∧
      ∃ leaf, leafFrom m mem va i base = some leaf ∧ physAddr m leaf.ppn leaf.level va =
        pa := by
  induction i using Nat.strong_induction_on generalizing base with
  | _ i ih =>
    unfold pageTableWalkFrom at h
    unfold cpTranslateFrom leafFrom
    rw [vpnAt_eq_new hv hi] at h ⊢
    simp only [pteAt]
    cases hs : hostStep m (readPte m mem (pteAddr m base (vpnAt m va i))) with
    | error fault => simp [hs] at h
    | ok step =>
      obtain ⟨hcp, hvalid, hstep⟩ := steps_agree hs
      by_cases hin : (Pte.ofBytes m (readPte m mem (pteAddr m base (vpnAt m va i)))).interior = true
      · rw [if_pos hin] at hstep
        cases i with
        | zero => simp [hs, hstep] at h
        | succ i =>
          simp only [hs, hstep] at h
          simp only [hcp, hstep, hvalid, hin, Bool.false_eq_true, if_false, if_true]
          exact ih i (by omega) (by omega) h
      · rw [if_neg hin] at hstep
        simp only [hs, hstep, Except.ok.injEq] at h
        simp [hcp, hstep, hvalid, hin, h]

def pteResponse (mem : Mem) (addr : ℕ) : MemRsp :=
  ⟨ptwTagMarker, 0, 0, some (line mem memBlockSize addr)⟩

theorem pteBytes_pteResponse (m : AddrMode) (mem : Mem) (base vpn : ℕ) :
    Mmu.pteBytes m (pteAddr m base vpn) (pteResponse mem (pteAddr m base vpn)) =
      readPte m mem (pteAddr m base vpn) := by
  have hin : pteAddr m base vpn % memBlockSize + m.pteSize ≤ memBlockSize := by
    cases m <;> simp only [pteAddr, ptSize, memBlockSize, AddrMode.pteSize] <;> omega
  have hmask : pteAddr m base vpn &&& (memBlockSize - 1) = pteAddr m base vpn % memBlockSize :=
    land_mask _ 6
  simp only [Mmu.pteBytes, pteResponse, hmask]
  exact readLE_line hin

theorem onPtwResponse_spec (mem : Mem) (s : Mmu)
    (hs : s.ptw.pteAddr = pteAddr m s.ptw.curPpn (vpnAt m s.ptw.vaddr s.ptw.level)) :
    (s.onPtwResponse m (pteResponse mem s.ptw.pteAddr) = none ∧
      leafFrom m mem s.ptw.vaddr s.ptw.level s.ptw.curPpn = none) ∨
    (∃ level ppn, s.ptw.level = level + 1 ∧
      s.onPtwResponse m (pteResponse mem s.ptw.pteAddr) =
        some { s with ptw := { s.ptw with curPpn := ppn, level := level, state := .req } } ∧
      leafFrom m mem s.ptw.vaddr s.ptw.level s.ptw.curPpn =
      leafFrom m mem s.ptw.vaddr level ppn) ∨
    (∃ leaf, s.onPtwResponse m (pteResponse mem s.ptw.pteAddr) =
        some { s with ptw := { s.ptw with finalPpn := leaf.ppn, flags := leaf.flags,
                                          leafLevel := leaf.level, state := .fill } } ∧
      leafFrom m mem s.ptw.vaddr s.ptw.level s.ptw.curPpn = some leaf) := by
  have hread : Mmu.pteBytes m s.ptw.pteAddr (pteResponse mem s.ptw.pteAddr) =
      readPte m mem (pteAddr m s.ptw.curPpn (vpnAt m s.ptw.vaddr s.ptw.level)) := by
    rw [hs]
    exact pteBytes_pteResponse m mem _ _
  have hresp : s.onPtwResponse m (pteResponse mem s.ptw.pteAddr) =
      s.takePte (pteAt m mem s.ptw.vaddr s.ptw.level s.ptw.curPpn) := by
    rw [Mmu.onPtwResponse, hread, pteAt]
  rw [hresp]
  cases hinvalid : (pteAt m mem s.ptw.vaddr s.ptw.level s.ptw.curPpn).invalid with
  | true => exact .inl ⟨by simp [Mmu.takePte, hinvalid], leafFrom_of_invalid hinvalid⟩
  | false =>
    cases hin : (pteAt m mem s.ptw.vaddr s.ptw.level s.ptw.curPpn).interior with
    | false =>
      exact .inr (.inr ⟨_, by simp [Mmu.takePte, hinvalid, hin], leafFrom_of_leaf hinvalid hin⟩)
    | true =>
      cases hl : s.ptw.level with
      | zero =>
        rw [hl] at hin hinvalid
        exact .inl ⟨by simp [Mmu.takePte, hinvalid, hin, hl], leafFrom_zero hin⟩
      | succ level =>
        rw [hl] at hin hinvalid
        exact .inr (.inl ⟨level, _, rfl, by simp [Mmu.takePte, hinvalid, hin, hl],
          leafFrom_succ hinvalid hin⟩)

def walkStep (m : AddrMode) (mem : Mem) (s : Mmu) : Option Mmu :=
  if s.ptw.state = .wait then s.onPtwResponse m (pteResponse mem s.ptw.pteAddr)
  else some (s.drivePtw m)

def walkRun (m : AddrMode) (mem : Mem) : ℕ → Mmu → Option Mmu
  | 0, s => some s
  | n + 1, s => (walkStep m mem s).bind (walkRun m mem n)

theorem drivePtw_req (s : Mmu) (hs : s.ptw.state = .req) (hroom : 0 < (s.reqOut 0).room) :
    let addr := pteAddr m s.ptw.curPpn (vpnAt m s.ptw.vaddr s.ptw.level)
    s.drivePtw m = { s.sendReq 0 (Mmu.pteFetch addr) with
      ptw := { s.ptw with pteAddr := addr, state := .wait } } := by
  simp [Mmu.drivePtw, hs, OutPort.full, ne_of_gt hroom, Mmu.sendReq, vpnAt]

theorem drivePtw_fill (s : Mmu) (hs : s.ptw.state = .fill)
    (hroom : 0 < (s.reqOut s.ptw.origPort).room) : (s.drivePtw m).ptw.state = .idle ∧
      (((s.drivePtw m).reqOut s.ptw.origPort).sent.getLast? =
        some { s.ptw.origReq with
          addr := physAddr m s.ptw.finalPpn s.ptw.leafLevel s.ptw.vaddr }) := by
  simp [Mmu.drivePtw, hs, OutPort.full, ne_of_gt hroom, Mmu.sendReq, OutPort.send]

theorem walkRun_of_leaf {leaf : Leaf} {level : ℕ} (s : Mmu) (hs : s.ptw.state = .req)
    (hlevel : s.ptw.level = level)
    (hleaf : leafFrom m mem s.ptw.vaddr s.ptw.level s.ptw.curPpn = some leaf)
    (hroom : ∀ p, level + 1 < (s.reqOut p).room) :
    ∃ n s', walkRun m mem n s = some s' ∧ s'.ptw.state = .idle ∧
      (s'.reqOut s.ptw.origPort).sent.getLast? =
        some { s.ptw.origReq with addr := physAddr m leaf.ppn leaf.level s.ptw.vaddr } := by
  induction level using Nat.strong_induction_on generalizing s with
  | _ level ih =>
    have hdrive := drivePtw_req (m := m) s hs (by have := hroom 0; omega)
    generalize hs₁ : s.drivePtw m = s₁ at hdrive
    have hstep : walkStep m mem s = some s₁ := by
      rw [walkStep, hs, if_neg (by decide), hs₁]
    have hwait : s₁.ptw.state = .wait := by rw [hdrive]
    have hroom₁ : ∀ p, level < (s₁.reqOut p).room := by
      intro p
      rw [hdrive]
      have hp := hroom p
      by_cases hp0 : p = 0
      · subst hp0
        simp only [Mmu.sendReq, OutPort.send, Function.update_self]
        omega
      · simp only [Mmu.sendReq, Function.update_of_ne hp0]
        omega
    have hcur : leafFrom m mem s₁.ptw.vaddr s₁.ptw.level s₁.ptw.curPpn = some leaf := by
      rw [hdrive]
      exact hleaf
    have hlevel₁ : s₁.ptw.level = level := by rw [hdrive]; exact hlevel
    have horig : s₁.ptw.origPort = s.ptw.origPort ∧ s₁.ptw.origReq = s.ptw.origReq ∧
        s₁.ptw.vaddr = s.ptw.vaddr := by
      rw [hdrive]
      exact ⟨rfl, rfl, rfl⟩
    have hresp : walkStep m mem s₁ = s₁.onPtwResponse m (pteResponse mem s₁.ptw.pteAddr) := by
      rw [walkStep, if_pos hwait]
    rcases onPtwResponse_spec mem s₁ (by rw [hdrive]) with
      ⟨_, hnone⟩ | ⟨l, ppn, hl, hs₂, hnext⟩ | ⟨leaf', hs₂, hsome⟩
    · simp [hcur] at hnone
    · have hih := ih l (by omega)
        { s₁ with ptw := { s₁.ptw with curPpn := ppn, level := l, state := .req } } rfl rfl
        (hnext.symm.trans hcur) (fun p => by have := hroom₁ p; simp only; omega)
      obtain ⟨n, s', hrun, hidle, hlast⟩ := hih
      refine ⟨n + 2, s', ?_, hidle, ?_⟩
      · simp [walkRun, hstep, hresp, hs₂, hrun]
      · simpa only [horig.1, horig.2.1, horig.2.2] using hlast
    · cases hcur.symm.trans hsome
      have hfill := drivePtw_fill (m := m)
        { s₁ with ptw := { s₁.ptw with finalPpn := leaf.ppn, flags := leaf.flags,
                                       leafLevel := leaf.level, state := .fill } } rfl
        (by have := hroom₁ s₁.ptw.origPort; simp only; omega)
      refine ⟨3, _, ?_, hfill.1, ?_⟩
      · simp only [walkRun, hstep, hresp, hs₂, Option.bind_some]
        simp [walkStep]
      · simpa only [horig.1, horig.2.1, horig.2.2] using hfill.2

/-- The unit, programmed with a root register and given a request that misses,
walks the tables without an abort and passes the request on at `pa`. -/
def MmuWalksTo (m : AddrMode) (mem : Mem) (satp va pa : ℕ) : Prop :=
  ∀ (s : Mmu) (req : MemReq) (port : ℕ), req.addr = va →
    (∀ p, m.ptLevel < (s.reqOut p).room) →
    ∃ n s', walkRun m mem n ((s.setSatp m satp).startPtw m va req port) = some s' ∧
      s'.ptw.state = .idle ∧ (s'.reqOut port).sent.getLast? = some { req with addr := pa }

def WalkersAgree (m : AddrMode) (satp : Satp) : Prop :=
  ∀ (mem : Mem) (va pa : ℕ), pageTableWalk m mem (some satp) va = some (.ok pa) →
    cpTranslate m mem satp.satp va false = some pa ∧ MmuWalksTo m mem satp.satp va pa

theorem walkersAgree_of_ppn {satp : Satp} (hmode : satp.mode ≠ 0) (hne : satp.satp ≠ 0)
    (hmode' : (Satp.ofValue m satp.satp).mode ≠ 0)
    (hppn : (Satp.ofValue m satp.satp).ppn = satp.ppn) : WalkersAgree m satp := by
  intro mem va pa h
  have hpos : 0 < m.ptLevel := by cases m <;> decide
  have hneed : needTrans (some satp) = true := by simpa [needTrans] using hmode
  simp only [pageTableWalk, hneed, if_true] at h
  cases hv : VAddr.new m va with
  | none => simp [hv] at h
  | some vpn =>
    simp only [hv, Option.bind_eq_bind, Option.bind_some, Option.some.injEq, getBasePpn] at h
    obtain ⟨hcp, leaf, hleaf, hpa⟩ := walk_of_host hv (by omega) h
    constructor
    · simp [cpTranslate, hne, hmode', hv, hppn, hcp]
    intro s req port _ hroom
    obtain ⟨n, s', hrun, hidle, hlast⟩ := walkRun_of_leaf
      ((s.setSatp m satp.satp).startPtw m va req port) rfl rfl
      (by
        simp only [Mmu.startPtw, Mmu.setSatp, getBasePpn, hppn]
        exact hleaf)
      (fun p => by
        have := hroom p
        simp only [Mmu.startPtw, Mmu.setSatp]
        omega)
    refine ⟨n, s', hrun, hidle, ?_⟩
    rw [← hpa]
    exact hlast

def rootMem (root : ℕ) : Mem := fun a => if a = root then 3 else if a = root + 3 then 16 else 0

theorem readLE_rootMem (root : ℕ) : readLE (rootMem root) root 8 = 0x10000003 := by
  simp [readLE, rootMem, add_assoc]

theorem readLE_rootMem_far {root a : ℕ} (h : a + 8 ≤ root) : readLE (rootMem root) a 8 = 0 := by
  apply readLE_zero
  intro i hi
  rw [rootMem, if_neg (by omega), if_neg (by omega)]

theorem walkers_differ {ppn : ℕ} {satp : Satp} (hmode : satp.mode = 8) (hne : satp.satp ≠ 0)
    (hppn : satp.ppn = ppn) (hmode' : (Satp.ofValue .sv39 satp.satp).mode = 8)
    (hppn' : (Satp.ofValue .sv39 satp.satp).ppn = ppn % 2 ^ 44) (hbig : 2 ^ 44 ≤ ppn) :
    ¬ WalkersAgree .sv39 satp := by
  have hidx : ∀ base, pteAddr .sv39 base (bits 0 30 38) = base * ptSize := by
    intro base
    simp [pteAddr, bits]
  have hhost : ∀ vpn : ℕ → ℕ, vpn 2 = bits 0 30 38 →
      pageTableWalkFrom .sv39 (rootMem (ppn * ptSize)) vpn 0 2 ppn = .ok (2 ^ 30) := by
    intro vpn hvpn
    have hread : readPte .sv39 (rootMem (ppn * ptSize)) (ppn * ptSize) = 0x10000003 :=
      readLE_rootMem (ppn * ptSize)
    have hstep : hostStep .sv39 0x10000003 = .ok (.leaf (2 ^ 18)) := by decide
    have hpa : physAddr .sv39 (2 ^ 18) 2 0 = 2 ^ 30 := by decide
    unfold pageTableWalkFrom
    simp only [hvpn, hidx, hread, hstep, hpa]
  have hcp : ∀ vpn : ℕ → ℕ, vpn 2 = bits 0 30 38 →
      cpTranslateFrom .sv39 (rootMem (ppn * ptSize)) vpn 0 2 (ppn % 2 ^ 44) = 0 := by
    intro vpn hvpn
    have hread : readPte .sv39 (rootMem (ppn * ptSize)) (ppn % 2 ^ 44 * ptSize) = 0 := by
      apply readLE_rootMem_far
      simp only [ptSize]
      omega
    have hstep : cpStep .sv39 0 = none := by decide
    unfold cpTranslateFrom
    simp only [hvpn, hidx, hread, hstep]
  intro h
  have hagree := (h (rootMem (ppn * ptSize)) 0 _ (by
    simp only [pageTableWalk, needTrans, hmode, VAddr.new, AddrMode.ptLevel, getBasePpn, hppn]
    exact congrArg some (hhost _ rfl))).1
  simp only [cpTranslate, hne, hmode', hppn', VAddr.new, AddrMode.ptLevel] at hagree
  simp only [Bool.false_eq_true, or_false, if_false, OfNat.ofNat_ne_zero, Option.bind_eq_bind,
    Option.bind_some, Option.some.injEq] at hagree
  exact absurd ((hcp _ rfl).symm.trans hagree) (by decide)

/-- The walkers agree for a root exactly when the root register can hold it. -/
theorem walkers_agree_iff (m : AddrMode) (address : ℕ) (ha : address < 2 ^ 64) :
    (∀ satp, Satp.ofAddress m address 0 = some satp → WalkersAgree m satp) ↔
      m = .sv32 ∨ address < 2 ^ 56 := by
  constructor
  · intro h
    by_contra hno
    simp only [not_or, not_lt] at hno
    obtain ⟨hm, hbig⟩ := hno
    cases m with
    | sv32 => exact hm rfl
    | sv39 =>
      obtain ⟨satp, hsatp⟩ : ∃ satp, Satp.ofAddress .sv39 address 0 = some satp :=
        ⟨_, rfl⟩
      obtain ⟨hmode, hppn, hne, hmode', hppn'⟩ := ofValue_ofAddress ha hsatp
      rw [if_neg (by decide), hppn] at hppn'
      have hlarge : 2 ^ 44 ≤ address >>> pageLog2Size := by
        rw [pageLog2Size, Nat.shiftRight_eq_div_pow]
        omega
      exact walkers_differ hmode hne hppn hmode' hppn' hlarge (h satp hsatp)
  · intro h satp hsatp
    obtain ⟨hmode, hppn, hne, hmode', hppn'⟩ := ofValue_ofAddress ha hsatp
    have hvalue : m.value ≠ 0 := by cases m <;> decide
    apply walkersAgree_of_ppn (hmode ▸ hvalue) hne (hmode' ▸ hvalue)
    rw [hppn']
    split
    · rfl
    rename_i hm
    have hsmall : address < 2 ^ 56 := h.resolve_left hm
    have hlt : satp.ppn < 2 ^ 44 := by
      rw [hppn, pageLog2Size, Nat.shiftRight_eq_div_pow]
      omega
    exact Nat.mod_eq_of_lt hlt

/-- The three walkers agree on every memory for the root register the virtual memory manager of the
host has stored when it is initialized. -/
theorem walkers_agree {asserts randomizeVa ok : Bool} {m : AddrMode} {rng : ℕ → ℕ}
    {v : VMManager}
    {satp : Satp} (hinit : VMManager.init (.build asserts m) randomizeVa rng = some (v, ok))
    (hsatp : v.satp = some satp) : WalkersAgree m satp :=
  (walkers_agree_iff m 0xF0000000 (by decide)).mpr (.inr (by decide)) satp
    (VMManager.init_satp hinit hsatp)

theorem walkers_agree_sv32 : ∃ v, VMManager.init (.build true .sv32) false id = some (v, true) ∧
    v.satp = some ⟨1, 0, 0xF0000, 0x800F0000⟩ ∧
      WalkersAgree .sv32 ⟨1, 0, 0xF0000, 0x800F0000⟩ := by
  have h : (VMManager.init (.build true .sv32) false id).map (fun r => (r.2, r.1.satp)) =
      some (true, some ⟨1, 0, 0xF0000, 0x800F0000⟩) := by decide +kernel
  obtain ⟨⟨v, ok⟩, hv, h⟩ := Option.map_eq_some_iff.mp h
  obtain ⟨rfl, hs⟩ := Prod.mk.inj h
  exact ⟨v, hv, hs, walkers_agree hv hs⟩

end VortexGpu.Simx

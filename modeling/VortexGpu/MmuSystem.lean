import VortexGpu.MmuWalk
import VortexGpu.Runs

/-!
# The memory management unit in its environment

`System` is the unit together with the requests that arrived, the responses that came back, and how
many of the walker's fetches the memory has answered. The environment acts between ticks in any
order; a tick gives every output channel the room it has in that cycle.
-/

namespace VortexGpu.Simx
open Word ByteMem Vm Mmu Option Function

/-- The translation mode of the build and the memory the page tables lie in. -/
class PageTables where
  m : AddrMode
  mem : Mem

open PageTables

structure System where
  mmu : Mmu
  arrived : ℕ → List MemReq
  returned : ℕ → List MemRsp
  answers : ℕ
  /-- How much each port had sent when the root register was last written. -/
  mark : ℕ → ℕ

def Ptw.reset : Ptw := ⟨.idle, 0, 0, 0, 0, 0, 0, 0, pteFetch 0, 0⟩

def Mmu.new (numPorts tlbSize : ℕ) : Mmu where
  numPorts := numPorts
  satp := none
  tlb := Tlb.new tlbSize
  ptw := Ptw.reset
  reqIn := fun _ => []
  rspIn := fun _ => []
  reqOut := fun _ => ⟨0, []⟩
  rspOut := fun _ => ⟨0, []⟩

def System.new (numPorts tlbSize : ℕ) : System where
  mmu := Mmu.new numPorts tlbSize
  arrived := fun _ => []
  returned := fun _ => []
  answers := 0
  mark := fun _ => 0

inductive Action where
  | setSatp (satp : ℕ)
  | arrive (p : ℕ) (req : MemReq)
  | respond (p : ℕ) (rsp : MemRsp)
  | answer
  | tick (reqRoom rspRoom : ℕ → ℕ)

def fetchesOf (c : OutPort MemReq) : List ℕ :=
  (c.sent.filter (fun r => marked r.tag)).map MemReq.addr

def Mmu.pushReq (s : Mmu) (p : ℕ) (req : MemReq) : Mmu :=
  { s with reqIn := update s.reqIn p (s.reqIn p ++ [req]) }

def Mmu.pushRsp (s : Mmu) (p : ℕ) (rsp : MemRsp) : Mmu :=
  { s with rspIn := update s.rspIn p (s.rspIn p ++ [rsp]) }

def Mmu.withRoom (s : Mmu) (reqRoom rspRoom : ℕ → ℕ) : Mmu :=
  { s with reqOut := fun p => ⟨reqRoom p, (s.reqOut p).sent⟩,
           rspOut := fun p => ⟨rspRoom p, (s.rspOut p).sent⟩ }

variable [PageTables]

/-- `none` is an action the environment cannot take, or the abort on a page fault. -/
def System.step (s : System) : Action → Option (System × Unit)
  | .setSatp satp => some ({ s with mmu := s.mmu.setSatp m satp,
                                    mark := fun p => (s.mmu.reqOut p).sent.length }, ())
  | .arrive p req =>
    if p < s.mmu.numPorts then
      some ({ s with mmu := s.mmu.pushReq p req,
                     arrived := update s.arrived p (s.arrived p ++ [req]) }, ())
    else none
  | .respond p rsp =>
    if p < s.mmu.numPorts then
      some ({ s with mmu := s.mmu.pushRsp p rsp,
                     returned := update s.returned p (s.returned p ++ [rsp]) }, ())
    else none
  | .answer =>
    match (fetchesOf (s.mmu.reqOut 0))[s.answers]? with
    | none => none
    | some addr => some ({ s with mmu := s.mmu.pushRsp 0 (pteResponse mem addr),
                                  answers := s.answers + 1 }, ())
  | .tick reqRoom rspRoom =>
    ((s.mmu.withRoom reqRoom rspRoom).onTick m).map (fun mmu => ({ s with mmu := mmu }, ()))

section Cases
variable {s s' : Mmu} {p : ℕ}

theorem drainResponse_cases (h : s.drainResponse m p = some s') :
    ((s.rspIn p = [] ∨ (s.rspOut p).full = true) ∧ s' = s) ∨
    (∃ rsp rest, s.rspIn p = rsp :: rest ∧ marked rsp.tag = true ∧ s.ptw.state ≠ .wait ∧
      s' = s.popRsp p) ∨
    (∃ rsp rest s₁, s.rspIn p = rsp :: rest ∧ marked rsp.tag = true ∧
      s.ptw.state = .wait ∧ s.onPtwResponse m rsp = some s₁ ∧ s' = s₁.popRsp p) ∨
    (∃ rsp rest, s.rspIn p = rsp :: rest ∧ marked rsp.tag = false ∧
      s' = (s.sendRsp p rsp).popRsp p) := by
  unfold drainResponse at h
  split at h
  · rename_i hq
    exact .inl ⟨.inl hq, (some.inj h).symm⟩
  rename_i rsp rest hq
  split at h
  · rename_i hm
    split at h
    · rename_i hw
      obtain ⟨s₁, hs₁, he⟩ := map_eq_some_iff.mp h
      exact .inr (.inr (.inl ⟨rsp, rest, s₁, hq, hm, hw, hs₁, he.symm⟩))
    · rename_i hw
      exact .inr (.inl ⟨rsp, rest, hq, hm, hw, (some.inj h).symm⟩)
  · rename_i hm
    split at h
    · rename_i hf
      exact .inl ⟨.inr hf, (some.inj h).symm⟩
    · exact .inr (.inr (.inr ⟨rsp, rest, hq, by simpa using hm, (some.inj h).symm⟩))

theorem onPtwResponse_cases {rsp : MemRsp} (h : s.onPtwResponse m rsp = some s') :
    ∃ ptw : Ptw, s' = { s with ptw := ptw } ∧ (ptw.state = .req ∨ ptw.state = .fill) ∧
      ptw.vaddr = s.ptw.vaddr ∧ ptw.origReq = s.ptw.origReq ∧
      ptw.origPort = s.ptw.origPort := by
  simp only [onPtwResponse, takePte] at h
  split at h
  · simp at h
  · split at h
    · split at h
      · simp at h
      · exact ⟨_, (some.inj h).symm, .inl rfl, rfl, rfl, rfl⟩
    · exact ⟨_, (some.inj h).symm, .inr rfl, rfl, rfl, rfl⟩

def Ptw.pa (ptw : Ptw) : ℕ := physAddr m ptw.finalPpn ptw.leafLevel ptw.vaddr

def Ptw.nextPteAddr (ptw : Ptw) : ℕ :=
  Vm.pteAddr m ptw.curPpn (vpnAt m ptw.vaddr ptw.level)

def Mmu.filled (s : Mmu) : Tlb :=
  s.tlb.fill (s.ptw.vaddr >>> pageLog2Size) (s.ptw.pa >>> pageLog2Size) s.ptw.flags

theorem runPtw_cases (s : Mmu) :
    ((s.ptw.state = .idle ∨ s.ptw.state = .wait) ∧ s.runPtw m = s) ∨
    (s.ptw.state = .req ∧ (s.reqOut 0).full = true ∧
      s.runPtw m = { s with ptw := { s.ptw with pteAddr := s.ptw.nextPteAddr } }) ∨
    (s.ptw.state = .req ∧ s.runPtw m =
      { s.sendReq 0 (pteFetch (s.ptw.nextPteAddr)) with
        ptw := { s.ptw with pteAddr := s.ptw.nextPteAddr, state := .wait } }) ∨
    (s.ptw.state = .fill ∧ (s.reqOut s.ptw.origPort).full = true ∧
      s.runPtw m = { s with tlb := s.filled }) ∨
    (s.ptw.state = .fill ∧ s.runPtw m =
      { s.sendReq s.ptw.origPort { s.ptw.origReq with addr := s.ptw.pa } with
        tlb := s.filled, ptw := { s.ptw with state := .idle } }) := by
  cases hs : s.ptw.state with
  | idle => exact .inl ⟨.inl rfl, by simp [runPtw, hs]⟩
  | wait => exact .inl ⟨.inr rfl, by simp [runPtw, hs]⟩
  | req =>
    cases hf : (s.reqOut 0).full with
    | true =>
      refine .inr (.inl ⟨rfl, rfl, ?_⟩)
      simp [runPtw, drivePtw, hs, hf, Ptw.nextPteAddr, vpnAt]
    | false =>
      refine .inr (.inr (.inl ⟨rfl, ?_⟩))
      simp [runPtw, drivePtw, hs, hf, Ptw.nextPteAddr, vpnAt, sendReq]
  | fill =>
    cases hf : (s.reqOut s.ptw.origPort).full with
    | true =>
      refine .inr (.inr (.inr (.inl ⟨rfl, rfl, ?_⟩)))
      simp [runPtw, drivePtw, hs, hf, filled, Ptw.pa]
    | false =>
      refine .inr (.inr (.inr (.inr ⟨rfl, ?_⟩)))
      simp [runPtw, drivePtw, hs, hf, filled, Ptw.pa, sendReq]

def hitAddr (ppn va : ℕ) : ℕ := shl64 ppn pageLog2Size ||| (va &&& (2 ^ pageLog2Size - 1))

def Mmu.looked (s : Mmu) (req : MemReq) : Mmu :=
  { s with tlb := (s.tlb.lookup (req.addr >>> pageLog2Size)).1 }

theorem forwardRequest_cases (s : Mmu) (p : ℕ) :
    ((s.reqIn p = [] ∨ (s.reqOut p).full = true) ∧ s.forwardRequest m p = s) ∨
    (∃ req, ((s.reqOut p).full = true ∨ s.ptw.state ≠ .idle) ∧
      s.forwardRequest m p = s.looked req) ∨
    (∃ req rest, s.reqIn p = req :: rest ∧ needTrans s.satp = false ∧
      (s.reqOut p).full = false ∧ s.forwardRequest m p = (s.sendReq p req).popReq p) ∨
    (∃ req rest ppn, s.reqIn p = req :: rest ∧ needTrans s.satp = true ∧
      (s.tlb.lookup (req.addr >>> pageLog2Size)).2 = some ppn ∧ (s.reqOut p).full = false ∧
      s.forwardRequest m p =
        ((s.looked req).sendReq p { req with addr := hitAddr ppn req.addr }).popReq p) ∨
    (∃ req rest, s.reqIn p = req :: rest ∧ needTrans s.satp = true ∧
      (s.tlb.lookup (req.addr >>> pageLog2Size)).2 = none ∧ s.ptw.state = .idle ∧
      s.forwardRequest m p = ((s.looked req).startPtw m req.addr req p).popReq p) := by
  cases hq : s.reqIn p with
  | nil => exact .inl ⟨.inl rfl, by simp [forwardRequest, hq]⟩
  | cons req rest =>
    cases hn : needTrans s.satp with
    | false =>
      cases hf : (s.reqOut p).full with
      | true => exact .inl ⟨.inr rfl, by simp [forwardRequest, hq, hn, hf]⟩
      | false =>
        refine .inr (.inr (.inl ⟨req, rest, rfl, rfl, rfl, ?_⟩))
        simp [forwardRequest, hq, hn, hf]
    | true =>
      cases hl : (s.tlb.lookup (req.addr >>> pageLog2Size)).2 with
      | some ppn =>
        cases hf : (s.reqOut p).full with
        | true =>
          refine .inr (.inl ⟨req, .inl rfl, ?_⟩)
          simp [forwardRequest, hq, hn, hl, hf, looked]
        | false =>
          refine .inr (.inr (.inr (.inl ⟨req, rest, ppn, rfl, rfl, hl, rfl, ?_⟩)))
          simp [forwardRequest, hq, hn, hl, hf, looked, hitAddr]
      | none =>
        by_cases hs : s.ptw.state = .idle
        · refine .inr (.inr (.inr (.inr ⟨req, rest, rfl, rfl, hl, hs, ?_⟩)))
          simp [forwardRequest, hq, hn, hl, hs, looked]
        · refine .inr (.inl ⟨req, .inr hs, ?_⟩)
          simp [forwardRequest, hq, hn, hl, hs, looked]

end Cases

theorem drain_keeps {P : Mmu → Prop}
    (hdrain : ∀ s s' p, P s → s.drainResponse m p = some s' → P s') (l : List ℕ)
    {s s' : Mmu} (hs : P s) (h : l.foldlM (drainResponse m) s = some s') : P s' := by
  induction l generalizing s with
  | nil =>
    simp only [List.foldlM_nil] at h
    exact some.inj h ▸ hs
  | cons p l ih =>
    simp only [List.foldlM_cons] at h
    obtain ⟨s₁, h₁, hrest⟩ := bind_eq_some_iff.mp h
    exact ih (hdrain s s₁ p hs h₁) hrest

theorem onTick_keeps {P Q : Mmu → Prop}
    (hdrain : ∀ s s' p, P s → s.drainResponse m p = some s' → P s')
    (hptw : ∀ s, P s → Q (s.runPtw m)) (hforward : ∀ s p, Q s → Q (s.forwardRequest m p))
    {s s' : Mmu} (hs : P s) (h : s.onTick m = some s') : Q s' := by
  unfold onTick at h
  obtain ⟨s₁, h₁, hrest⟩ := bind_eq_some_iff.mp h
  cases hrest
  apply List.foldlRecOn
  · exact hptw s₁ (drain_keeps hdrain _ hs h₁)
  · intro s₂ hs₂ p _
    exact hforward s₂ p hs₂

theorem onTick_isSome {P : Mmu → Prop}
    (hdrain : ∀ s p, P s → ∃ s', s.drainResponse m p = some s' ∧ P s') {s : Mmu}
    (hs : P s) : ∃ s', s.onTick m = some s' := by
  have hfold : ∀ l : List ℕ, ∃ s', l.foldlM (drainResponse m) s = some s' := by
    intro l
    induction l generalizing s with
    | nil => exact ⟨s, rfl⟩
    | cons p l ih =>
      obtain ⟨s₁, h₁, hs₁⟩ := hdrain s p hs
      obtain ⟨s', hs'⟩ := ih hs₁
      exact ⟨s', by simp [h₁, hs']⟩
  obtain ⟨s₁, h₁⟩ := hfold (List.range s.numPorts)
  exact ⟨_, by rw [onTick, h₁]; rfl⟩

end VortexGpu.Simx

import VortexGpu.MmuCoherence

/-!
# Translation across writes of the root register

A write of the root register flushes the TLB but leaves the walker alone. If the walker is idle at
every write, or the write keeps the tables it is walking, then in every state reached the TLB agrees
with the tables of the current register, and every request passed on since the last write was
translated by them.
-/

namespace VortexGpu.Simx
open Word ByteMem Vm Runs List PageTables
open Function (update update_of_ne update_self)

section
variable [PageTables]

def SameTables (satp satp' : Option Satp) : Prop :=
  needTrans satp = true ∧ needTrans satp' = true ∧ getBasePpn satp = getBasePpn satp'

instance (satp satp' : Option Satp) : Decidable (SameTables satp satp') :=
  inferInstanceAs (Decidable (_ ∧ _ ∧ _))

/-- What the environment keeps to: the root register is not moved to other tables
during a walk, and tags leave the marker bit to the walker. -/
def Allowed (s : System) : Action → Prop
  | .setSatp satp => s.mmu.ptw.state = .idle ∨ SameTables s.mmu.satp (some (Satp.ofValue m satp))
  | .arrive _ req => marked req.tag = false
  | .respond _ rsp => marked rsp.tag = false
  | .answer => True
  | .tick _ _ => True

instance (s : System) (a : Action) : Decidable (Allowed s a) := by
  cases a <;> unfold Allowed <;> infer_instance

namespace WalkInv
variable {answers p : ℕ} {s : Mmu} {req : MemReq} {rsp : MemRsp}

theorem new (numPorts tlbSize : ℕ) : WalkInv 0 (Mmu.new numPorts tlbSize) where
  coherent _ _ h := absurd h (Tlb.not_has_new tlbSize)
  tags _ _ h := by simp [Mmu.new] at h
  walking h := absurd rfl h
  waiting h := by simp [Mmu.new, Ptw.reset] at h
  quiet _ := ⟨rfl, rfl⟩
  others _ _ := rfl

section
variable (h : WalkInv answers s)
include h

theorem setSatp {satp : ℕ}
    (ha : s.ptw.state = .idle ∨ SameTables s.satp (some (Satp.ofValue m satp))) :
    WalkInv answers (s.setSatp m satp) := by
  refine { h with
    coherent := fun _ _ hhas => absurd hhas Tlb.not_has_flush, walking := fun hne => ?_ }
  have hsame := ha.resolve_left hne
  have hwalk := h.walking hne
  exact ⟨hsame.2.1, hwalk.vaddr, hwalk.tag, hsame.2.2 ▸ hwalk.leads⟩

theorem pushReq (hr : marked req.tag = false) : WalkInv answers (s.pushReq p req) := by
  refine { h with tags := fun q r hmem => ?_ }
  by_cases hq : q = p
  · subst hq
    simp only [Mmu.pushReq, update_self, mem_append, mem_singleton] at hmem
    rcases hmem with hold | rfl
    · exact h.tags q r hold
    · exact hr
  · simp only [Mmu.pushReq, update_of_ne hq] at hmem
    exact h.tags q r hmem

theorem pushRsp_of_unmarked (hr : marked rsp.tag = false) : WalkInv answers (s.pushRsp p rsp) := by
  have hin : (s.pushRsp p rsp).inbox = s.inbox := by
    funext q
    by_cases hq : q = p
    · subst hq
      simp [Mmu.inbox, Mmu.pushRsp, hr]
    · simp [Mmu.inbox, Mmu.pushRsp, update_of_ne hq]
  refine { h with waiting := ?_, quiet := ?_, others := ?_ } <;> rw [hin]
  exacts [h.waiting, h.quiet, h.others]

theorem answer {addr : ℕ} (ha : (fetchesOf (s.reqOut 0))[answers]? = some addr) :
    WalkInv (answers + 1) (s.pushRsp 0 (pteResponse mem addr)) := by
  have hlt := (List.getElem?_eq_some_iff.mp ha).1
  have hw : s.ptw.state = .wait := by
    by_contra hw
    have hquiet := (h.quiet hw).1
    omega
  obtain ⟨haddr, F, hF, hcase⟩ := h.waiting hw
  have hmark : marked ptwTagMarker = true := by decide
  rcases hcase with ⟨hlen, hnil⟩ | ⟨hlen, _⟩
  · have hsame : s.ptw.pteAddr = addr := by
      rw [hF, hlen] at ha
      simpa using ha
    have hin : (s.pushRsp 0 (pteResponse mem addr)).inbox 0 = [pteResponse mem addr] := by
      simp only [Mmu.inbox] at hnil
      simp [Mmu.inbox, Mmu.pushRsp, hnil, pteResponse, hmark]
    exact
      { h with
        waiting := fun _ =>
        ⟨haddr, F, hF, Or.inr ⟨by rw [hlen], by rw [hin, ← hsame]; rfl⟩⟩
        quiet := fun hne => absurd hw hne
        others := fun q hq => by
          have hold := h.others q hq
          simpa [Mmu.inbox, Mmu.pushRsp, update_of_ne hq] using hold }
  · rw [hF, hlen] at hlt
    simp at hlt

theorem withRoom (reqRoom rspRoom : ℕ → ℕ) : WalkInv answers (s.withRoom reqRoom rspRoom) :=
  { h with }

end

end WalkInv

def IsTranslation (satp : Option Satp) (arrived : List MemReq) (req' : MemReq) : Prop :=
  ∃ req ∈ arrived, ∃ pa, translate satp req.addr = some pa ∧ req' = { req with addr := pa }

structure Sent (mark : ℕ → ℕ) (arrived : ℕ → List MemReq) (s : Mmu) : Prop where
  marks : ∀ p, mark p ≤ (s.reqOut p).sent.length
  queued : ∀ p, ∀ r ∈ s.reqIn p, r ∈ arrived p
  parked : s.ptw.state ≠ .idle → s.ptw.origReq ∈ arrived s.ptw.origPort
  sent : ∀ p, ∀ r ∈ (s.reqOut p).sent.drop (mark p), marked r.tag = false →
    IsTranslation s.satp (arrived p) r

namespace Sent
variable {mark : ℕ → ℕ} {arrived : ℕ → List MemReq} {answers p : ℕ}
  {s s' : Mmu} {req : MemReq}

section
variable (h : Sent mark arrived s)
include h

theorem sendReq
    (hr : marked req.tag = false → IsTranslation s.satp (arrived p) req) :
    Sent mark arrived (s.sendReq p req) where
  marks q := by
    have hq := h.marks q
    by_cases hqp : q = p
    · subst hqp
      simp only [Mmu.sendReq, update_self, OutPort.send, length_append]
      omega
    · simpa only [Mmu.sendReq, update_of_ne hqp] using hq
  queued := h.queued
  parked := h.parked
  sent q r hmem := by
    by_cases hqp : q = p
    · subst hqp
      simp only [Mmu.sendReq, update_self, OutPort.send] at hmem
      rw [drop_append_of_le_length (h.marks q), mem_append, mem_singleton] at hmem
      rcases hmem with hold | rfl
      · exact h.sent q r hold
      · exact hr
    · simp only [Mmu.sendReq, update_of_ne hqp] at hmem
      exact h.sent q r hmem

theorem popReq : Sent mark arrived (s.popReq p) :=
  { h with queued := fun q r hr => h.queued q r (mem_popReq hr) }

theorem looked : Sent mark arrived (s.looked req) :=
  { h with }

theorem drainResponse (hd : s.drainResponse m p = some s') : Sent mark arrived s' := by
  rcases drainResponse_cases hd with ⟨_, rfl⟩ | ⟨rsp, rest, _, _, _, rfl⟩ |
    ⟨rsp, rest, s₁, _, _, hw, hs₁, rfl⟩ | ⟨rsp, rest, _, _, rfl⟩
  · exact h
  · exact { h with }
  · have hp := h.parked (by simp [hw])
    obtain ⟨ptw, rfl, _, _, hreq, hport⟩ := onPtwResponse_cases hs₁
    exact { h with parked := fun _ => by rw [← hreq, ← hport] at hp; exact hp }
  · exact { h with }

end

theorem runPtw (hw : WalkInv answers s) (h : Sent mark arrived s) :
    Sent mark arrived (s.runPtw m) := by
  rcases runPtw_cases s with ⟨_, heq⟩ | ⟨hs, _, heq⟩ | ⟨hs, heq⟩ | ⟨_, _, heq⟩ |
    ⟨hs, heq⟩
  · rw [heq]
    exact h
  · rw [heq]
    exact { h with parked := fun _ => h.parked (by simp [hs]) }
  · rw [heq]
    have hmark : marked ptwTagMarker = true := by decide
    have hsent : Sent mark arrived (s.sendReq 0 (Mmu.pteFetch (s.ptw.nextPteAddr))) := by
      apply h.sendReq
      intro hun
      simp [Mmu.pteFetch, hmark] at hun
    exact { hsent with parked := fun _ => h.parked (by simp [hs]) }
  · rw [heq]
    exact { h with }
  · rw [heq]
    have hsent : Sent mark arrived
        (s.sendReq s.ptw.origPort { s.ptw.origReq with addr := s.ptw.pa }) :=
      h.sendReq (fun _ => ⟨_, h.parked (by simp [hs]), _, hw.translate_of_fill hs, rfl⟩)
    exact { hsent with parked := fun hne => absurd rfl hne }

theorem forwardRequest (hw : WalkInv answers s) (h : Sent mark arrived s) (p : ℕ) :
    Sent mark arrived (s.forwardRequest m p) := by
  rcases forwardRequest_cases s p with ⟨_, heq⟩ | ⟨req, _, heq⟩ |
    ⟨req, rest, hq, hn, _, heq⟩ |
    ⟨req, rest, ppn, hq, _, hl, _, heq⟩ | ⟨req, rest, hq, _, _, _, heq⟩
  · rw [heq]
    exact h
  · rw [heq]
    exact h.looked
  · rw [heq]
    have hmem : req ∈ arrived p := h.queued p req (by simp [hq])
    exact (h.sendReq (fun _ => ⟨req, hmem, req.addr, by simp [translate, hn], rfl⟩)).popReq
  · rw [heq]
    have hmem : req ∈ arrived p := h.queued p req (by simp [hq])
    have htrans := hw.coherent.hit (Tlb.has_of_lookup hl)
    exact (h.looked.sendReq (fun _ => ⟨req, hmem, _, htrans, rfl⟩)).popReq
  · rw [heq]
    have hmem : req ∈ arrived p := h.queued p req (by simp [hq])
    have hwalk : Sent mark arrived ((s.looked req).startPtw m req.addr req p) :=
      { h with parked := fun _ => hmem }
    exact hwalk.popReq

end Sent

structure Coherence (s : System) : Prop where
  walk : WalkInv s.answers s.mmu
  sent : Sent s.mark s.arrived s.mmu

namespace Coherence
variable {s : System}

theorem new (numPorts tlbSize : ℕ) : Coherence (System.new numPorts tlbSize) where
  walk := WalkInv.new numPorts tlbSize
  sent :=
    { marks := fun _ => Nat.zero_le _
      queued := fun _ _ hr => by simp [System.new, Mmu.new] at hr
      parked := fun hne => absurd rfl hne
      sent := fun _ _ hr => by simp [System.new, Mmu.new] at hr }

section
variable (h : Coherence s)
include h

theorem setSatp {satp : ℕ} (ha : Allowed s (.setSatp satp)) :
    Coherence { s with mmu := s.mmu.setSatp m satp,
                             mark := fun p => (s.mmu.reqOut p).sent.length } where
  walk := h.walk.setSatp ha
  sent :=
    { h.sent with
      marks := fun _ => le_rfl
      sent := fun p r hr => by simp [Mmu.setSatp] at hr }

theorem arrive {p : ℕ} {req : MemReq} (hr : marked req.tag = false) :
    Coherence { s with mmu := s.mmu.pushReq p req,
                             arrived := update s.arrived p (s.arrived p ++ [req]) } := by
  have hgrow : ∀ q r, r ∈ s.arrived q →
      r ∈ update s.arrived p (s.arrived p ++ [req]) q := by
    intro q r hmem
    by_cases hq : q = p
    · subst hq
      simp [hmem]
    · simpa [update_of_ne hq] using hmem
  refine ⟨h.walk.pushReq hr, h.sent.marks, ?_, ?_, ?_⟩
  · intro q r hmem
    by_cases hq : q = p
    · subst hq
      simp only [Mmu.pushReq, update_self, mem_append] at hmem ⊢
      exact hmem.imp_left (h.sent.queued q r)
    · simp only [Mmu.pushReq, update_of_ne hq] at hmem ⊢
      exact h.sent.queued q r hmem
  · intro hne
    exact hgrow _ _ (h.sent.parked hne)
  · intro q r hmem hun
    obtain ⟨req₀, hreq₀, htrans⟩ := h.sent.sent q r hmem hun
    exact ⟨req₀, hgrow q req₀ hreq₀, htrans⟩

theorem tick {reqRoom rspRoom : ℕ → ℕ} {mmu : Mmu}
    (ht : (s.mmu.withRoom reqRoom rspRoom).onTick m = some mmu) :
    Coherence { s with mmu := mmu } := by
  have hroom : Sent s.mark s.arrived (s.mmu.withRoom reqRoom rspRoom) :=
    { h.sent with }
  have hkeep := onTick_keeps
    (P := fun mmu => WalkInv s.answers mmu ∧ Sent s.mark s.arrived mmu)
    (Q := fun mmu => WalkInv s.answers mmu ∧ Sent s.mark s.arrived mmu)
    (fun _ _ _ hp hd => ⟨hp.1.drainResponse hd, hp.2.drainResponse hd⟩)
    (fun _ hp => ⟨hp.1.runPtw, hp.2.runPtw hp.1⟩)
    (fun _ p hp => ⟨hp.1.forwardRequest p, hp.2.forwardRequest hp.1 p⟩)
    ⟨h.walk.withRoom reqRoom rspRoom, hroom⟩ ht
  exact ⟨hkeep.1, hkeep.2⟩

theorem step {a : Action} {s' : System} {b : Unit} (ha : Allowed s a)
    (hstep : s.step a = some (s', b)) : Coherence s' := by
  cases a with
  | setSatp satp =>
    cases hstep
    exact h.setSatp ha
  | arrive p req =>
    simp only [System.step] at hstep
    split at hstep
    · cases hstep
      exact h.arrive ha
    · simp at hstep
  | respond p rsp =>
    simp only [System.step] at hstep
    split at hstep
    · cases hstep
      exact ⟨h.walk.pushRsp_of_unmarked ha, { h.sent with }⟩
    · simp at hstep
  | answer =>
    simp only [System.step] at hstep
    split at hstep
    · simp at hstep
    · rename_i addr haddr
      cases hstep
      exact ⟨h.walk.answer haddr, { h.sent with }⟩
  | tick reqRoom rspRoom =>
    simp only [System.step] at hstep
    obtain ⟨mmu, hmmu, heq⟩ := Option.map_eq_some_iff.mp hstep
    cases heq
    exact h.tick hmmu

end

end Coherence

/-- In every state reached, the TLB agrees with the programmed tables, and what left
since the root register was written was translated by them. -/
theorem runs_coherent (numPorts tlbSize : ℕ) (as : List Action)
    (ha : Along System.step Allowed (System.new numPorts tlbSize) as) (t : System)
    (os : List Unit) (hrun : run System.step (System.new numPorts tlbSize) as = some (t, os)) :
    Coherent t.mmu.satp t.mmu.tlb ∧
      ∀ p, ∀ r ∈ (t.mmu.reqOut p).sent.drop (t.mark p), marked r.tag = false →
        IsTranslation t.mmu.satp (t.arrived p) r := by
  have h := run_reaches (I := Coherence) (fun _ _ _ _ hs ha hstep => hs.step ha hstep)
    (Coherence.new numPorts tlbSize) ha hrun
  exact ⟨h.walk.coherent, h.sent.sent⟩

end

abbrev twoRoots : PageTables where
  m := .sv32
  mem := fun a =>
    if a = 0x1000 then 3 else if a = 0x1002 then 0x10
    else if a = 0x2000 then 3 else if a = 0x2002 then 0x20 else 0

def load (addr : ℕ) : MemReq := ⟨.ld, addr, none, 15, 1, 0, 0, 0⟩

def moveAfterWalk : List Action :=
  [.setSatp (2 ^ 31 + 1), .arrive 0 (load 0), .tick (fun _ => 2) (fun _ => 2),
   .tick (fun _ => 2) (fun _ => 2), .answer, .tick (fun _ => 2) (fun _ => 2),
   .setSatp (2 ^ 31 + 2), .arrive 0 (load 0), .tick (fun _ => 2) (fun _ => 2)]

def moveDuringWalk : List Action :=
  [.setSatp (2 ^ 31 + 1), .arrive 0 (load 0), .tick (fun _ => 2) (fun _ => 2),
   .tick (fun _ => 2) (fun _ => 2), .setSatp (2 ^ 31 + 2), .answer, .tick (fun _ => 2) (fun _ => 2)]

theorem runs_coherent_move :
    letI := twoRoots
    ∃ t os, run System.step (System.new 1 2) moveAfterWalk = some (t, os) ∧
      Coherent t.mmu.satp t.mmu.tlb ∧
      ∀ p, ∀ r ∈ (t.mmu.reqOut p).sent.drop (t.mark p), marked r.tag = false →
        IsTranslation t.mmu.satp (t.arrived p) r := by
  let := twoRoots
  have hsome : (run System.step (System.new 1 2) moveAfterWalk).isSome = true := by decide
  obtain ⟨⟨t, os⟩, hrun⟩ := Option.isSome_iff_exists.mp hsome
  exact ⟨t, os, hrun, runs_coherent 1 2 moveAfterWalk (by decide) t os hrun⟩

/-- The walk ends in the tables that are no longer programmed: the TLB holds their
frame, and the request leaves at their address. -/
theorem stale_frame_after_move :
    letI := twoRoots
    ∃ t os, run System.step (System.new 1 2) moveDuringWalk = some (t, os) ∧
      ¬ Coherent t.mmu.satp t.mmu.tlb ∧
      ∃ r ∈ (t.mmu.reqOut 0).sent.drop (t.mark 0), marked r.tag = false ∧
        ¬ IsTranslation t.mmu.satp (t.arrived 0) r := by
  let := twoRoots
  have hview : (run System.step (System.new 1 2) moveDuringWalk).map
      (fun r => (r.1.mmu.tlb, r.1.mmu.satp, (r.1.arrived 0).map MemReq.addr,
        ((r.1.mmu.reqOut 0).sent.drop (r.1.mark 0)).map (fun req => (req.addr, req.tag)))) =
      some ([⟨true, true, 0, 0x400, 3⟩, ⟨false, false, 0, 0, 0⟩],
        some (Satp.ofValue .sv32 (2 ^ 31 + 2)), [0], [(0x400000, 1)]) := by decide
  obtain ⟨⟨t, os⟩, hrun, hfields⟩ := Option.map_eq_some_iff.mp hview
  simp only [Prod.mk.injEq] at hfields
  obtain ⟨htlb, hsatp, harrived, hsent⟩ := hfields
  have hnew : translate t.mmu.satp 0 = some 0x800000 := by
    rw [hsatp]
    decide
  refine ⟨t, os, hrun, ?_, ?_⟩
  · intro hc
    obtain ⟨_, hframe⟩ :=
      hc 0 0x400 ⟨⟨true, true, 0, 0x400, 3⟩, by simp [htlb], rfl, rfl, rfl⟩
    obtain ⟨pa, hpa, hppn⟩ := hframe 0 rfl
    rw [hnew] at hpa
    cases hpa
    simp [pageLog2Size] at hppn
  · obtain ⟨r, hr, hone⟩ : ∃ r ∈ (t.mmu.reqOut 0).sent.drop (t.mark 0),
        (r.addr, r.tag) = (0x400000, 1) := by
      apply mem_map.mp
      rw [hsent]
      exact mem_singleton.mpr rfl
    obtain ⟨haddr, htag⟩ := Prod.mk.inj hone
    refine ⟨r, hr, by rw [htag]; decide, ?_⟩
    intro htrans
    obtain ⟨req, hreq, pa, hpa, rfl⟩ := htrans
    have hzero : req.addr = 0 := by
      have hmem := mem_map_of_mem (f := MemReq.addr) hreq
      rw [harrived] at hmem
      exact mem_singleton.mp hmem
    rw [hzero, hnew] at hpa
    cases hpa
    simp at haddr

end VortexGpu.Simx

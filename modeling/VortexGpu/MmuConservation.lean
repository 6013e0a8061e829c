import VortexGpu.MmuRuns
import VortexGpu.Queues

/-!
# Nothing is lost, duplicated or overtaken within a page

With the root register fixed, every request that arrives on a port leaves on it once, with its
address translated, and requests to one page leave in order. Those that overtake a parked request go
to other pages: until the walk ends the TLB has no entry for the walked page, and then the walker
has first claim on the port, which stays full as long as the parked request waits.
-/

namespace VortexGpu.Simx
open Word ByteMem Vm Runs Queues List
open Function (update_of_ne update_self)
open Mmu PageTables

def page (req : MemReq) : ℕ := req.addr >>> pageLog2Size

namespace Mmu

def parked (s : Mmu) (p : ℕ) : List MemReq :=
  if s.ptw.state ≠ .idle ∧ s.ptw.origPort = p then [s.ptw.origReq] else []

def pending (s : Mmu) (p : ℕ) : List MemReq := s.parked p ++ s.reqIn p

def emitted (s : Mmu) (p : ℕ) : List MemReq := (s.reqOut p).sent.filter (fun r => !marked r.tag)

def waiting (s : Mmu) (p : ℕ) : List MemRsp := (s.rspIn p).filter (fun r => !marked r.tag)

end Mmu

section Channels
variable {s : Mmu} {p q : ℕ} {req : MemReq} {rsp : MemRsp} {rest : List MemRsp}

theorem emitted_sendReq (s : Mmu) (p : ℕ) (req : MemReq) (h : marked req.tag = false) :
    (s.sendReq p req).emitted p = s.emitted p ++ [req] := by
  simp [sendReq, emitted, OutPort.send, h]

theorem emitted_sendReq_of_ne (s : Mmu) (req : MemReq) (hq : q ≠ p) :
    (s.sendReq p req).emitted q = s.emitted q := by
  simp [sendReq, emitted, update_of_ne hq]

theorem emitted_pteFetch (s : Mmu) (addr q : ℕ) :
    (s.sendReq 0 (pteFetch addr)).emitted q = s.emitted q := by
  have hm : marked ptwTagMarker = true := by decide
  by_cases hq : q = 0
  · subst hq
    simp [sendReq, emitted, OutPort.send, pteFetch, hm]
  · exact emitted_sendReq_of_ne s _ hq

theorem parked_of_idle (h : s.ptw.state = .idle) : s.parked p = [] := by
  simp [Mmu.parked, h]

theorem parked_self (h : s.ptw.state ≠ .idle) : s.parked s.ptw.origPort = [s.ptw.origReq] := by
  simp [Mmu.parked, h]

theorem parked_of_ne (h : p ≠ s.ptw.origPort) : s.parked p = [] := by
  simp [Mmu.parked, Ne.symm h]

theorem waiting_popRsp_of_marked (h : s.rspIn p = rsp :: rest) (hm : marked rsp.tag = true) :
    (s.popRsp p).waiting = s.waiting := by
  funext q
  by_cases hq : q = p
  · subst hq
    simp [waiting, popRsp, h, hm]
  · simp [waiting, popRsp, update_of_ne hq]

end Channels

variable [PageTables]

def translated (satp : Option Satp) (req : MemReq) : MemReq :=
  { req with addr := (translate satp req.addr).getD req.addr }

def Mapped (satp : Option Satp) (req : MemReq) : Prop :=
  (translate satp req.addr).isSome = true

/-- What came out is the translation of what went in, up to what is still inside
and to the order of different pages. -/
def Accounted (satp : Option Satp) (emitted pending arrived : List MemReq) : Prop :=
  ∃ os, emitted = os.map (translated satp) ∧ SameOrder page (os ++ pending) arrived

section Accounts
variable {satp : Option Satp} {emitted pending arrived P B : List MemReq}
  {req : MemReq}

theorem translated_of_some {pa : ℕ} (h : translate satp req.addr = some pa) :
    translated satp req = { req with addr := pa } := by
  simp [translated, h]

theorem Accounted.pass (h : Accounted satp emitted (P ++ req :: B) arrived)
    (hP : ∀ x ∈ P, page x ≠ page req) :
    Accounted satp (emitted ++ [translated satp req]) (P ++ B) arrived := by
  obtain ⟨os, hos, hsame⟩ := h
  refine ⟨os ++ [req], by simp [hos], ?_⟩
  rw [← append_assoc] at hsame ⊢
  exact SameOrder.trans (SameOrder.overtake hP) hsame

theorem Accounted.arrive (h : Accounted satp emitted pending arrived) (req : MemReq) :
    Accounted satp emitted (pending ++ [req]) (arrived ++ [req]) := by
  obtain ⟨os, hos, hsame⟩ := h
  refine ⟨os, hos, ?_⟩
  rw [← append_assoc]
  exact hsame.append [req]

end Accounts

structure Kept (arrived : ℕ → List MemReq) (returned : ℕ → List MemRsp)
    (s : Mmu) : Prop where
  outside : ∀ p, s.numPorts ≤ p → s.reqIn p = [] ∧ s.rspIn p = []
  port : s.ptw.state ≠ .idle → s.ptw.origPort < s.numPorts
  mapped : ∀ p, ∀ r ∈ s.pending p, Mapped s.satp r
  miss : s.ptw.state = .req ∨ s.ptw.state = .wait →
    ∀ ppn, ¬ s.tlb.Has (s.ptw.vaddr >>> pageLog2Size) ppn
  reqs : ∀ p, Accounted s.satp (s.emitted p) (s.pending p) (arrived p)
  rsps : ∀ p, (s.rspOut p).sent ++ s.waiting p = returned p
  upstream : ∀ p, ∀ r ∈ (s.rspOut p).sent, marked r.tag = false

/-- From the walker's turn to the end of a tick a parked request that is ready to
leave waits for room. -/
def Blocked (s : Mmu) : Prop := s.ptw.state = .fill → (s.reqOut s.ptw.origPort).full = true

namespace Kept
variable {arrived : ℕ → List MemReq} {returned : ℕ → List MemRsp}
  {answers p : ℕ} {s s' : Mmu} {req : MemReq}

section
variable (hw : WalkInv answers s) (h : Kept arrived returned s)
include hw h

theorem leads_isSome (hs : s.ptw.state ≠ .idle) : (s.ptw.leads).isSome = true := by
  have hwalk := hw.walking hs
  have hmap : Mapped s.satp s.ptw.origReq := by
    apply h.mapped s.ptw.origPort
    rw [Mmu.pending, parked_self hs]
    exact mem_cons_self
  rw [Mapped, translate, if_pos hwalk.trans, Option.isSome_map, ← hwalk.vaddr] at hmap
  rw [hwalk.leads]
  exact hmap

theorem drainResponse (hd : s.drainResponse m p = some s') : Kept arrived returned s' := by
  have hout : ∀ q, s.numPorts ≤ q → s.reqIn q = [] ∧ (s.popRsp p).rspIn q = [] := by
    intro q hq
    obtain ⟨hreq, hrsp⟩ := h.outside q hq
    by_cases hqp : q = p
    · subst hqp
      exact ⟨hreq, by simp [popRsp, hrsp]⟩
    · exact ⟨hreq, by simpa [popRsp, update_of_ne hqp] using hrsp⟩
  rcases drainResponse_cases hd with ⟨_, rfl⟩ | ⟨rsp, rest, hq, hm, hne, _⟩ |
    ⟨rsp, rest, s₁, hq, hm, hwait, hs₁, rfl⟩ | ⟨rsp, rest, hq, hm, rfl⟩
  · exact h
  · exact absurd (hw.marked_response hq hm).2.1 hne
  · obtain ⟨ptw, rfl, hstate, hvaddr, hreq, hport⟩ := onPtwResponse_cases hs₁
    have hidle : s.ptw.state ≠ .idle := by simp [hwait]
    have hidle' : ptw.state ≠ .idle := by
      rcases hstate with hstate | hstate <;> simp [hstate]
    have hpending : ∀ q, (popRsp { s with ptw := ptw } p).pending q = s.pending q := by
      intro q
      simp [Mmu.pending, Mmu.parked, popRsp, hidle, hidle', hreq, hport]
    have hwaiting : (popRsp { s with ptw := ptw } p).waiting = s.waiting :=
      waiting_popRsp_of_marked (s := s) hq hm
    exact
      { outside := hout
        port := fun _ => by
          have hlt := h.port hidle
          simpa only [popRsp, hport] using hlt
        mapped := fun q r hr => h.mapped q r (hpending q ▸ hr)
        miss := fun _ ppn => by
          have hno := h.miss (.inr hwait) ppn
          simpa only [popRsp, hvaddr] using hno
        reqs := fun q => by
          rw [hpending q]
          exact h.reqs q
        rsps := fun q => by
          rw [hwaiting]
          exact h.rsps q
        upstream := h.upstream }
  · have hsplit : ∀ q, (((s.sendRsp p rsp).popRsp p).rspOut q).sent ++
        ((s.sendRsp p rsp).popRsp p).waiting q = (s.rspOut q).sent ++ s.waiting q := by
      intro q
      by_cases hqp : q = p
      · subst hqp
        simp [waiting, popRsp, sendRsp, OutPort.send, hq, hm]
      · simp [waiting, popRsp, sendRsp, update_of_ne hqp]
    exact
      { h with
        outside := hout
        rsps := fun q => (hsplit q).trans (h.rsps q)
        upstream := by
          intro q r hr
          by_cases hqp : q = p
          · subst hqp
            simp only [popRsp, sendRsp, update_self, OutPort.send, mem_append, mem_singleton] at hr
            rcases hr with hold | rfl
            · exact h.upstream q r hold
            · exact hm
          · simp only [popRsp, sendRsp, update_of_ne hqp] at hr
            exact h.upstream q r hr }

theorem drainResponse_isSome (p : ℕ) : ∃ s', s.drainResponse m p = some s' := by
  cases hd : s.drainResponse m p with
  | some s' => exact ⟨s', rfl⟩
  | none =>
    exfalso
    unfold Mmu.drainResponse at hd
    split at hd
    · simp at hd
    rename_i rsp rest hq
    split at hd
    · rename_i hm
      obtain ⟨_, hwait, rfl, haddr, _⟩ := hw.marked_response hq hm
      rw [if_pos hwait, Option.map_eq_none_iff] at hd
      have hleads := h.leads_isSome hw (by simp [hwait])
      rw [Ptw.leads, hwait] at hleads
      rcases onPtwResponse_spec mem s haddr with ⟨_, hnone⟩ | ⟨_, _, _, hsome, _⟩ |
        ⟨_, hsome, _⟩
      · simp [hnone] at hleads
      · simp [hsome] at hd
      · simp [hsome] at hd
    · split at hd <;> simp at hd

theorem runPtw_fill (hs : s.ptw.state = .fill) : Kept arrived returned
      { s.sendReq s.ptw.origPort { s.ptw.origReq with addr := s.ptw.pa } with
        tlb := s.filled, ptw := { s.ptw with state := .idle } } := by
  have hidle : s.ptw.state ≠ .idle := by simp [hs]
  have hreq := translated_of_some (hw.translate_of_fill hs)
  have htag := (hw.walking hidle).tag
  have hpend : ∀ q, ∀ r ∈ s.reqIn q, r ∈ s.pending q := fun q r hr => mem_append_right _ hr
  refine ⟨h.outside, fun hne => absurd rfl hne, ?_, fun hm => by simp at hm, ?_, h.rsps,
    h.upstream⟩
  · intro q r hr
    exact h.mapped q r (hpend q r (by simpa [Mmu.pending, Mmu.parked, sendReq] using hr))
  intro q
  have hacc := h.reqs q
  by_cases hq : q = s.ptw.origPort
  · subst hq
    rw [Mmu.pending, parked_self hidle] at hacc
    have hpass := Accounted.pass (P := []) hacc (by simp)
    rw [hreq] at hpass
    have hemit := emitted_sendReq s s.ptw.origPort
      { s.ptw.origReq with addr := s.ptw.pa } htag
    simp only [emitted, Mmu.pending, Mmu.parked, sendReq] at hemit hpass ⊢
    rw [hemit]
    simpa using hpass
  · rw [Mmu.pending, parked_of_ne hq] at hacc
    have hemit := emitted_sendReq_of_ne s { s.ptw.origReq with addr := s.ptw.pa } hq
    simp only [emitted, Mmu.pending, Mmu.parked, sendReq] at hemit hacc ⊢
    rw [hemit]
    simpa using hacc

theorem runPtw : Kept arrived returned (s.runPtw m) ∧ Blocked (s.runPtw m) := by
  rcases runPtw_cases s with ⟨hs, heq⟩ | ⟨hs, _, heq⟩ | ⟨hs, heq⟩ |
    ⟨hs, hfull, heq⟩ | ⟨hs, heq⟩
  · rw [heq]
    refine ⟨h, ?_⟩
    intro hfill
    rcases hs with hs | hs <;> simp [hs] at hfill
  · rw [heq]
    refine ⟨{ h with }, ?_⟩
    intro hfill
    simp [hs] at hfill
  · have hidle : s.ptw.state ≠ .idle := by simp [hs]
    have hpending : ∀ q, Mmu.pending { s.sendReq 0 (pteFetch (s.ptw.nextPteAddr)) with
        ptw := { s.ptw with pteAddr := s.ptw.nextPteAddr, state := .wait } } q = s.pending q := by
      intro q
      simp [Mmu.pending, Mmu.parked, sendReq, hidle]
    rw [heq]
    refine ⟨⟨h.outside, fun _ => h.port hidle, ?_, fun _ => h.miss (.inl hs), ?_, h.rsps,
      h.upstream⟩, ?_⟩
    · intro q r hr
      exact h.mapped q r (hpending q ▸ hr)
    · intro q
      rw [hpending q]
      exact (emitted_pteFetch s (s.ptw.nextPteAddr) q) ▸ h.reqs q
    · intro hfill
      simp at hfill
  · rw [heq]
    refine ⟨{ h with miss := ?_ }, fun _ => hfull⟩
    intro hm
    rcases hm with hm | hm <;> simp [hs] at hm
  · rw [heq]
    refine ⟨h.runPtw_fill hw hs, ?_⟩
    intro hfill
    simp at hfill

end

section
variable (h : Kept arrived returned s)
include h

theorem sendHead {rest : List MemReq} (hq : s.reqIn p = req :: rest) (htag : marked req.tag = false)
    (hP : ∀ x ∈ s.parked p, page x ≠ page req) :
    Kept arrived returned ((s.sendReq p (translated s.satp req)).popReq p) := by
  refine { h with outside := ?_, mapped := ?_, reqs := ?_ }
  · intro q hge
    obtain ⟨hreq, hrsp⟩ := h.outside q hge
    have hqp : q ≠ p := by
      rintro rfl
      simp [hq] at hreq
    exact ⟨by simpa [Mmu.popReq, sendReq, update_of_ne hqp] using hreq, hrsp⟩
  · intro q r hr
    apply h.mapped q r
    rcases mem_append.mp hr with hold | hnew
    · exact mem_append_left _ hold
    · exact mem_append_right _ (mem_popReq hnew)
  · intro q
    have hacc := h.reqs q
    by_cases hqp : q = p
    · subst hqp
      have hemit := emitted_sendReq s q (translated s.satp req) htag
      rw [Mmu.pending, hq] at hacc
      have hpass := hacc.pass hP
      simp only [emitted, Mmu.pending, Mmu.parked, Mmu.popReq, sendReq,
        update_self, hq, tail_cons] at hemit hpass ⊢
      rw [hemit]
      exact hpass
    · simp only [emitted, Mmu.pending, Mmu.parked, Mmu.popReq, sendReq,
        update_of_ne hqp] at hacc ⊢
      exact hacc

theorem looked (req : MemReq) : Kept arrived returned (s.looked req) :=
  { h with miss := fun hs ppn hhas => h.miss hs ppn (Tlb.has_lookup.mp hhas) }

theorem startPtw {rest : List MemReq} (hq : s.reqIn p = req :: rest) (hs : s.ptw.state = .idle)
    (hmiss : ∀ ppn, ¬ s.tlb.Has (req.addr >>> pageLog2Size) ppn) :
    Kept arrived returned ((s.startPtw m req.addr req p).popReq p) := by
  have hp : p < s.numPorts := by
    by_contra hp
    simp [(h.outside p (by omega)).1] at hq
  have hpending : ((s.startPtw m req.addr req p).popReq p).pending = s.pending := by
    funext q
    by_cases hqp : q = p
    · subst hqp
      simp [Mmu.pending, Mmu.parked, Mmu.startPtw, Mmu.popReq, hq, hs]
    · simp [Mmu.pending, Mmu.parked, Mmu.startPtw, Mmu.popReq, update_of_ne hqp, hs, Ne.symm hqp]
  refine ⟨?_, fun _ => hp, ?_, fun _ => hmiss, ?_, h.rsps, h.upstream⟩
  · intro q hge
    obtain ⟨hreq, hrsp⟩ := h.outside q hge
    have hqp : q ≠ p := by
      rintro rfl
      simp [hq] at hreq
    exact ⟨by simpa [Mmu.popReq, Mmu.startPtw, update_of_ne hqp] using hreq, hrsp⟩
  · intro q r hr
    rw [hpending] at hr
    exact h.mapped q r hr
  · intro q
    rw [hpending]
    exact h.reqs q

end

theorem hit_other_page {ppn : ℕ} (hw : WalkInv answers s) (h : Kept arrived returned s)
    (hb : Blocked s) (hl : (s.tlb.lookup (req.addr >>> pageLog2Size)).2 = some ppn)
    (hfull : (s.reqOut p).full = false) : ∀ x ∈ s.parked p, page x ≠ page req := by
  intro x hx hpage
  by_cases hs : s.ptw.state ≠ .idle ∧ s.ptw.origPort = p
  · rw [Mmu.parked, if_pos hs, mem_singleton] at hx
    subst hx
    have hhas := Tlb.has_of_lookup hl
    have hmiss : s.ptw.state = .req ∨ s.ptw.state = .wait := by
      cases hst : s.ptw.state with
      | idle => exact absurd hst hs.1
      | req => exact .inl rfl
      | wait => exact .inr rfl
      | fill =>
        have hno := hb hst
        rw [hs.2, hfull] at hno
        exact absurd hno (by decide)
    apply h.miss hmiss ppn
    rw [(hw.walking hs.1).vaddr]
    rw [page, page] at hpage
    rw [hpage]
    exact hhas
  · rw [Mmu.parked, if_neg hs] at hx
    simp at hx

theorem forwardRequest (hw : WalkInv answers s) (h : Kept arrived returned s)
    (hb : Blocked s) (p : ℕ) :
    Kept arrived returned (s.forwardRequest m p) ∧ Blocked (s.forwardRequest m p) := by
  have hblocked : ∀ r, (s.reqOut p).full = false → Blocked ((s.sendReq p r).popReq p) := by
    intro r hfull hs
    have hno := hb hs
    have hne : s.ptw.origPort ≠ p := by
      rintro rfl
      simp [hfull] at hno
    simpa [sendReq, Mmu.popReq, update_of_ne hne] using hno
  rcases forwardRequest_cases s p with ⟨_, heq⟩ | ⟨req, _, heq⟩ |
    ⟨req, rest, hq, hn, hfull, heq⟩ |
    ⟨req, rest, ppn, hq, _, hl, hfull, heq⟩ | ⟨req, rest, hq, _, hl, hs, heq⟩
  · rw [heq]
    exact ⟨h, hb⟩
  · rw [heq]
    exact ⟨h.looked req, hb⟩
  · rw [heq]
    have htrans : translated s.satp req = req := by simp [translated, translate, hn]
    have hidle : s.ptw.state = .idle := by
      by_contra hidle
      simp [(hw.walking hidle).trans] at hn
    have hkeep := h.sendHead hq (hw.tags p req (by simp [hq])) (by simp [parked_of_idle hidle])
    rw [htrans] at hkeep
    exact ⟨hkeep, hblocked req hfull⟩
  · rw [heq]
    have htrans : translated s.satp req = { req with addr := hitAddr ppn req.addr } :=
      translated_of_some (hw.coherent.hit (Tlb.has_of_lookup hl))
    have hother := h.hit_other_page hw hb hl hfull
    have hkeep := (h.looked req).sendHead hq (hw.tags p req (by simp [hq])) hother
    rw [← htrans]
    exact ⟨hkeep, hblocked _ hfull⟩
  · rw [heq]
    refine ⟨(h.looked req).startPtw hq hs ?_, ?_⟩
    · intro ppn hhas
      exact Tlb.not_has_of_lookup hl (Tlb.has_lookup.mp hhas)
    · intro hfill
      simp [Mmu.startPtw, Mmu.popReq] at hfill

end Kept

end VortexGpu.Simx

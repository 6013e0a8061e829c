import VortexGpu.MmuSystem

/-!
# The TLB agrees with the page tables

`WalkInv` ties the walker's registers, the fetch in flight and the TLB together: wherever the walk
stands, it leads to the leaf a full walk from the programmed root leads to, and every valid entry of
the TLB is the frame of such a leaf. Only a write of the root register during a walk breaks it: the
walk goes on in the old tables and fills the flushed TLB with an old frame.
-/

namespace VortexGpu.Simx
open Word ByteMem Vm List Nat Function

def Tlb.Has (t : Tlb) (vpn ppn : ℕ) : Prop :=
  ∃ e ∈ t, e.valid = true ∧ e.vpn = vpn ∧ e.ppn = ppn

namespace Tlb
variable {t : Tlb} {v vpn ppn q flags : ℕ}

theorem has_cons {e : TlbEntry} :
    Has (e :: t) vpn ppn ↔ (e.valid = true ∧ e.vpn = vpn ∧ e.ppn = ppn) ∨
    Has t vpn ppn := by
  simp [Has]

theorem has_of_lookup (h : (lookup t vpn).2 = some ppn) : Has t vpn ppn := by
  induction t with
  | nil => simp [lookup] at h
  | cons e t ih =>
    rw [lookup] at h
    rw [has_cons]
    split at h
    · rename_i he
      exact .inl ⟨he.1, he.2, Option.some.inj h⟩
    · exact .inr (ih h)

theorem not_has_of_lookup (h : (lookup t vpn).2 = none) : ¬ Has t vpn ppn := by
  induction t with
  | nil => simp [Has]
  | cons e t ih =>
    rw [lookup] at h
    rw [has_cons]
    split at h
    · simp at h
    · rename_i he
      intro hhas
      rcases hhas with ⟨h₁, h₂, _⟩ | hrest
      · exact he ⟨h₁, h₂⟩
      · exact ih h hrest

theorem has_lookup : Has (lookup t v).1 vpn ppn ↔ Has t vpn ppn := by
  induction t with
  | nil => simp [lookup]
  | cons e t ih =>
    rw [lookup]
    split
    · rw [has_cons, has_cons]
    · rw [has_cons, has_cons, ih]

theorem has_fill (h : Has (fill t vpn ppn flags) v q) : (v = vpn ∧ q = ppn) ∨ Has t v q := by
  have hset : ∀ (l : Tlb) (i : ℕ), Has (l.set i ⟨true, true, vpn, ppn, flags⟩) v q →
      (v = vpn ∧ q = ppn) ∨ Has l v q := by
    intro l i hl
    obtain ⟨e, he, hv, hvpn, hppn⟩ := hl
    rcases mem_or_eq_of_mem_set he with hm | heq
    · exact .inr ⟨e, hm, hv, hvpn, hppn⟩
    · subst heq
      exact .inl ⟨hvpn.symm, hppn.symm⟩
  unfold fill at h
  split at h
  · exact hset _ _ h
  rcases hset _ _ h with heq | hm
  · exact .inl heq
  · right
    obtain ⟨e, he, hv, hvpn, hppn⟩ := hm
    obtain ⟨e₀, he₀, rfl⟩ := mem_map.mp he
    exact ⟨e₀, he₀, hv, hvpn, hppn⟩

theorem not_has_flush : ¬ Has (flush t) vpn ppn := by
  intro h
  obtain ⟨e, he, hv, _⟩ := h
  obtain ⟨e₀, _, rfl⟩ := mem_map.mp he
  simp at hv

theorem not_has_new (size : ℕ) : ¬ Has (new size) vpn ppn := by
  intro h
  obtain ⟨e, he, hv, _⟩ := h
  rw [new] at he
  rw [eq_of_mem_replicate he] at hv
  simp at hv

end Tlb

section Frames
variable {m : AddrMode} {mem : Mem} {va va' level base : ℕ}

theorem vpnAt_congr (h : va >>> pageLog2Size = va' >>> pageLog2Size) (level : ℕ) :
    vpnAt m va level = vpnAt m va' level := by
  rw [vpnAt, vpnAt, shiftRight_add, shiftRight_add, h]

theorem leafFrom_congr (h : va >>> pageLog2Size = va' >>> pageLog2Size) (level base : ℕ) :
    leafFrom m mem va level base = leafFrom m mem va' level base := by
  induction level generalizing base with
  | zero =>
    have hp : pteAt m mem va 0 base = pteAt m mem va' 0 base := by rw [pteAt, pteAt, vpnAt_congr h]
    rw [leafFrom, leafFrom, hp]
  | succ level ih =>
    have hp : pteAt m mem va (level + 1) base = pteAt m mem va' (level + 1) base := by
      rw [pteAt, pteAt, vpnAt_congr h]
    cases hv : (pteAt m mem va' (level + 1) base).invalid with
    | true => rw [leafFrom_of_invalid hv, leafFrom_of_invalid (hp ▸ hv)]
    | false =>
      cases hi : (pteAt m mem va' (level + 1) base).interior with
      | true => rw [leafFrom_succ hv hi, leafFrom_succ (hp ▸ hv) (hp ▸ hi), hp, ih]
      | false => rw [leafFrom_of_leaf hv hi, leafFrom_of_leaf (hp ▸ hv) (hp ▸ hi), hp]

theorem leafFrom_bounds {leaf : Leaf} (h : leafFrom m mem va level base = some leaf) :
    leaf.level ≤ level ∧ leaf.ppn < 2 ^ 44 := by
  induction level generalizing base with
  | zero =>
    cases hv : (pteAt m mem va 0 base).invalid with
    | true => simp [leafFrom_of_invalid hv] at h
    | false =>
      cases hi : (pteAt m mem va 0 base).interior with
      | true => simp [leafFrom_zero hi] at h
      | false =>
        rw [leafFrom_of_leaf hv hi] at h
        cases h
        exact ⟨le_rfl, Pte.ppn_lt m _⟩
  | succ level ih =>
    cases hv : (pteAt m mem va (level + 1) base).invalid with
    | true => simp [leafFrom_of_invalid hv] at h
    | false =>
      cases hi : (pteAt m mem va (level + 1) base).interior with
      | true =>
        rw [leafFrom_succ hv hi] at h
        have hb := ih h
        exact ⟨by omega, hb.2⟩
      | false =>
        rw [leafFrom_of_leaf hv hi] at h
        cases h
        exact ⟨le_rfl, Pte.ppn_lt m _⟩

theorem physAddr_eq {ppn k : ℕ} (hk : k = pageLog2Size + level * m.vpnBits) (hk64 : k ≤ 64)
    (hppn : ppn < 2 ^ 44) :
    physAddr m ppn level va = ppn * 2 ^ 12 / 2 ^ k * 2 ^ k + va % 2 ^ k := by
  subst hk
  have hshl : shl64 ppn pageLog2Size = ppn * 2 ^ 12 :=
    shl64_of_lt (by simp only [pageLog2Size]; omega)
  rw [physAddr, hshl, land_not64_mask (by omega) hk64, land_mask, or_eq_add]
  exact mod_lt _ (Nat.two_pow_pos _)

theorem level_shift (hl : level < m.ptLevel) : level * m.vpnBits ≤ 18 := by
  cases m with
  | sv32 | sv39 =>
    simp only [AddrMode.ptLevel, AddrMode.vpnBits] at hl ⊢
    omega

theorem physAddr_div {ppn j : ℕ} (hl : level < m.ptLevel) (hj : level * m.vpnBits = j)
    (hppn : ppn < 2 ^ 44) (va : ℕ) :
    physAddr m ppn level va / 2 ^ 12 = ppn / 2 ^ j * 2 ^ j + va / 2 ^ 12 % 2 ^ j ∧
      physAddr m ppn level va % 2 ^ 12 = va % 2 ^ 12 := by
  have hj18 := level_shift hl
  have hk : 12 + j = pageLog2Size + level * m.vpnBits := by rw [hj]; rfl
  have hdiv : ppn * 2 ^ 12 / 2 ^ (12 + j) = ppn / 2 ^ j := by
    rw [pow_add, mul_comm ppn, Nat.mul_div_mul_left _ _ (by norm_num)]
  have hsplit : physAddr m ppn level va =
      (ppn / 2 ^ j * 2 ^ j + va / 2 ^ 12 % 2 ^ j) * 2 ^ 12 + va % 2 ^ 12 := by
    rw [physAddr_eq hk (by omega) hppn, hdiv, pow_add, mod_mul]
    ring
  rw [hsplit]
  omega

section
variable {ppn : ℕ} (hl : level < m.ptLevel) (hppn : ppn < 2 ^ 44)
include hl hppn

theorem physAddr_frame_lt (va : ℕ) : physAddr m ppn level va / 2 ^ 12 < 2 ^ 52 := by
  obtain ⟨hdiv, _⟩ := physAddr_div hl rfl hppn va
  have h₁ := div_mul_le_self ppn (2 ^ (level * m.vpnBits))
  have h₃ : 2 ^ (level * m.vpnBits) ≤ 2 ^ 18 :=
    Nat.pow_le_pow_right (by norm_num) (level_shift hl)
  rw [hdiv]
  omega

theorem physAddr_frame_congr (h : va >>> pageLog2Size = va' >>> pageLog2Size) :
    physAddr m ppn level va >>> pageLog2Size = physAddr m ppn level va' >>> pageLog2Size := by
  simp only [pageLog2Size, shiftRight_eq_div_pow] at h ⊢
  rw [(physAddr_div hl rfl hppn va).1, (physAddr_div hl rfl hppn va').1, h]

theorem hitAddr_physAddr (va : ℕ) :
    hitAddr (physAddr m ppn level va >>> pageLog2Size) va = physAddr m ppn level va := by
  have hlt := physAddr_frame_lt hl hppn va
  obtain ⟨_, hmod⟩ := physAddr_div hl rfl hppn va
  rw [hitAddr, pageLog2Size, shiftRight_eq_div_pow, shl64_of_lt (by omega), land_mask,
    or_eq_add (mod_lt _ (by norm_num)), ← hmod]
  exact div_add_mod' _ _

end

end Frames

def Mmu.inbox (s : Mmu) (p : ℕ) : List MemRsp := (s.rspIn p).filter (fun r => marked r.tag)

section Queues
variable {s : Mmu} {p q : ℕ} {req : MemReq} {rsp : MemRsp} {rest : List MemRsp}

theorem fetchesOf_sendReq (h : marked req.tag = false) :
    fetchesOf ((s.sendReq p req).reqOut q) = fetchesOf (s.reqOut q) := by
  by_cases hq : q = p
  · subst hq
    simp [Mmu.sendReq, OutPort.send, fetchesOf, h]
  · simp [Mmu.sendReq, update_of_ne hq]

theorem fetchesOf_pteFetch (s : Mmu) (addr : ℕ) :
    fetchesOf ((s.sendReq 0 (Mmu.pteFetch addr)).reqOut 0) = fetchesOf (s.reqOut 0) ++ [addr] := by
  have hm : marked ptwTagMarker = true := by decide
  simp [Mmu.sendReq, OutPort.send, fetchesOf, Mmu.pteFetch, hm]

theorem mem_popReq {r : MemReq} (h : r ∈ (s.popReq p).reqIn q) : r ∈ s.reqIn q := by
  by_cases hq : q = p
  · subst hq
    simp only [Mmu.popReq, update_self] at h
    exact mem_of_mem_tail h
  · simpa only [Mmu.popReq, update_of_ne hq] using h

theorem inbox_popRsp_of_marked (h : s.rspIn p = rsp :: rest) (hm : marked rsp.tag = true) :
    s.inbox p = rsp :: (s.popRsp p).inbox p := by
  simp [Mmu.inbox, Mmu.popRsp, h, hm]

theorem inbox_popRsp_of_unmarked (h : s.rspIn p = rsp :: rest) (hm : marked rsp.tag = false) :
    (s.popRsp p).inbox = s.inbox := by
  funext q
  by_cases hq : q = p
  · subst hq
    simp [Mmu.inbox, Mmu.popRsp, h, hm]
  · simp [Mmu.inbox, Mmu.popRsp, update_of_ne hq]

theorem inbox_popRsp_of_ne (hq : q ≠ p) : (s.popRsp p).inbox q = s.inbox q := by
  simp [Mmu.inbox, Mmu.popRsp, update_of_ne hq]

end Queues

open PageTables
variable [PageTables]

/-- What the tables below a root register make of an address; `none` is a page fault. -/
def translate (satp : Option Satp) (va : ℕ) : Option ℕ :=
  if needTrans satp then
    (leafFrom m mem va (m.ptLevel - 1) (getBasePpn satp)).map
      (fun leaf => physAddr m leaf.ppn leaf.level va)
  else some va

def Coherent (satp : Option Satp) (t : Tlb) : Prop :=
  ∀ vpn ppn, t.Has vpn ppn → needTrans satp = true ∧
    ∀ va, va >>> pageLog2Size = vpn → ∃ pa, translate satp va = some pa ∧
      pa >>> pageLog2Size = ppn

section Coherence
variable {satp : Option Satp} {t : Tlb} {va ppn : ℕ} {leaf : Leaf}

theorem level_lt (h : leafFrom m mem va (m.ptLevel - 1) (getBasePpn satp) = some leaf) :
    leaf.level < m.ptLevel ∧ leaf.ppn < 2 ^ 44 := by
  have hb := leafFrom_bounds h
  have hpos : 0 < m.ptLevel := by cases m <;> decide
  exact ⟨by omega, hb.2⟩

theorem translate_of_leaf (hn : needTrans satp = true)
    (h : leafFrom m mem va (m.ptLevel - 1) (getBasePpn satp) = some leaf) :
    translate satp va = some (physAddr m leaf.ppn leaf.level va) := by
  simp [translate, hn, h]

theorem Coherent.hit (h : Coherent satp t) (ht : t.Has (va >>> pageLog2Size) ppn) :
    translate satp va = some (hitAddr ppn va) := by
  obtain ⟨hn, hall⟩ := h _ _ ht
  obtain ⟨pa, hpa, hframe⟩ := hall va rfl
  cases hl : leafFrom m mem va (m.ptLevel - 1) (getBasePpn satp) with
  | none => simp [translate, hn, hl] at hpa
  | some leaf =>
    obtain ⟨hlevel, hppn⟩ := level_lt hl
    rw [translate_of_leaf hn hl] at hpa ⊢
    cases hpa
    rw [← hframe, hitAddr_physAddr hlevel hppn]

theorem Coherent.fill (h : Coherent satp t) (hn : needTrans satp = true)
    (hl : leafFrom m mem va (m.ptLevel - 1) (getBasePpn satp) = some leaf) (flags : ℕ) :
    Coherent satp (t.fill (va >>> pageLog2Size)
      (physAddr m leaf.ppn leaf.level va >>> pageLog2Size) flags) := by
  intro vpn ppn hhas
  rcases Tlb.has_fill hhas with ⟨rfl, rfl⟩ | hold
  · refine ⟨hn, ?_⟩
    intro va' hva'
    obtain ⟨hlevel, hppn⟩ := level_lt hl
    have hl' : leafFrom m mem va' (m.ptLevel - 1) (getBasePpn satp) = some leaf :=
      (leafFrom_congr hva' _ _).trans hl
    exact ⟨_, translate_of_leaf hn hl', physAddr_frame_congr hlevel hppn hva'⟩
  · exact h vpn ppn hold

theorem Coherent.lookup (h : Coherent satp t) (v : ℕ) : Coherent satp (t.lookup v).1 := by
  intro vpn ppn hhas
  exact h vpn ppn (Tlb.has_lookup.mp hhas)

end Coherence

def Ptw.leads (ptw : Ptw) : Option Leaf :=
  match ptw.state with
  | .fill => some ⟨ptw.finalPpn, ptw.leafLevel, ptw.flags⟩
  | _ => leafFrom m mem ptw.vaddr ptw.level ptw.curPpn

structure Walking (satp : Option Satp) (ptw : Ptw) : Prop where
  trans : needTrans satp = true
  vaddr : ptw.vaddr = ptw.origReq.addr
  tag : marked ptw.origReq.tag = false
  leads : ptw.leads = leafFrom m mem ptw.vaddr (m.ptLevel - 1) (getBasePpn satp)

/-- The one fetch in flight: not answered yet, or answered and not yet taken. -/
structure Waiting (answers : ℕ) (ptw : Ptw) (fetches : List ℕ)
    (inbox : List MemRsp) : Prop where
  addr : ptw.pteAddr = ptw.nextPteAddr
  fetch : ∃ F, fetches = F ++ [ptw.pteAddr] ∧
    ((answers = F.length ∧ inbox = []) ∨
      (answers = F.length + 1 ∧ inbox = [pteResponse mem ptw.pteAddr]))

structure WalkInv (answers : ℕ) (s : Mmu) : Prop where
  coherent : Coherent s.satp s.tlb
  tags : ∀ p, ∀ r ∈ s.reqIn p, marked r.tag = false
  walking : s.ptw.state ≠ .idle → Walking s.satp s.ptw
  waiting : s.ptw.state = .wait →
    Waiting answers s.ptw (fetchesOf (s.reqOut 0)) (s.inbox 0)
  quiet : s.ptw.state ≠ .wait → answers = (fetchesOf (s.reqOut 0)).length ∧ s.inbox 0 = []
  others : ∀ p, p ≠ 0 → s.inbox p = []

namespace WalkInv
variable {answers p : ℕ} {s s' : Mmu} {req : MemReq} {rsp : MemRsp}

section
variable (h : WalkInv answers s)
include h

theorem sendReq (hr : marked req.tag = false) : WalkInv answers (s.sendReq p req) := by
  refine { h with waiting := ?_, quiet := ?_ }
  · rw [fetchesOf_sendReq hr]
    exact h.waiting
  · rw [fetchesOf_sendReq hr]
    exact h.quiet

theorem popReq : WalkInv answers (s.popReq p) :=
  { h with tags := fun q r hr => h.tags q r (mem_popReq hr) }

theorem looked : WalkInv answers (s.looked req) :=
  { h with coherent := h.coherent.lookup _ }

theorem popRsp_of_unmarked {rest : List MemRsp} (hq : s.rspIn p = rsp :: rest)
    (hm : marked rsp.tag = false) : WalkInv answers ((s.sendRsp p rsp).popRsp p) := by
  have hin : ((s.sendRsp p rsp).popRsp p).inbox = s.inbox := inbox_popRsp_of_unmarked hq hm
  refine { h with waiting := ?_, quiet := ?_, others := ?_ } <;> rw [hin]
  exacts [h.waiting, h.quiet, h.others]

theorem startPtw (hs : s.ptw.state = .idle) (hn : needTrans s.satp = true)
    (hr : marked req.tag = false) : WalkInv answers (s.startPtw m req.addr req p) :=
  { h with
    walking := fun _ => ⟨hn, rfl, hr, rfl⟩
    waiting := fun hw => by simp [Mmu.startPtw] at hw
    quiet := fun _ => h.quiet (by simp [hs]) }

theorem marked_response {rest : List MemRsp} (hq : s.rspIn p = rsp :: rest)
    (hm : marked rsp.tag = true) :
    p = 0 ∧ s.ptw.state = .wait ∧ rsp = pteResponse mem s.ptw.pteAddr ∧
      s.ptw.pteAddr = s.ptw.nextPteAddr ∧ answers = (fetchesOf (s.reqOut 0)).length ∧
      (s.popRsp p).inbox 0 = [] := by
  have hin := inbox_popRsp_of_marked hq hm
  have hp : p = 0 := by
    by_contra hp
    simp [h.others p hp] at hin
  subst hp
  have hw : s.ptw.state = .wait := by
    by_contra hw
    simp [(h.quiet hw).2] at hin
  obtain ⟨haddr, F, hF, hcase⟩ := h.waiting hw
  rcases hcase with ⟨_, hnil⟩ | ⟨ha, hone⟩
  · simp [hnil] at hin
  · rw [hone] at hin
    obtain ⟨hrsp, hnil⟩ := List.cons.inj hin
    exact ⟨rfl, hw, hrsp.symm, haddr, by simp [hF, ha], hnil.symm⟩

theorem takeAnswer (hw : s.ptw.state = .wait) (haddr : s.ptw.pteAddr = s.ptw.nextPteAddr)
    (ha : answers = (fetchesOf (s.reqOut 0)).length) (hnil : (s.popRsp 0).inbox 0 = [])
    {s₁ : Mmu} (hs₁ : s.onPtwResponse m (pteResponse mem s.ptw.pteAddr) = some s₁) :
    WalkInv answers (s₁.popRsp 0) := by
  have hwalk := h.walking (by simp [hw])
  have hleads : leafFrom m mem s.ptw.vaddr s.ptw.level s.ptw.curPpn =
      leafFrom m mem s.ptw.vaddr (m.ptLevel - 1) (getBasePpn s.satp) := by
    rw [← hwalk.leads, Ptw.leads, hw]
  have hothers : ∀ q, q ≠ 0 → (s.popRsp 0).inbox q = [] := by
    intro q hq
    rw [inbox_popRsp_of_ne hq, h.others q hq]
  rcases onPtwResponse_spec mem s haddr with ⟨hnone, _⟩ | ⟨level, ppn, _, hsome, hnext⟩ |
    ⟨leaf, hsome, hleaf⟩
  · simp [hnone] at hs₁
  · cases hsome.symm.trans hs₁
    exact
      { h with
        walking := fun _ => { hwalk with leads := hnext.symm.trans hleads }
        waiting := fun hwait => by simp [Mmu.popRsp] at hwait
        quiet := fun _ => ⟨ha, hnil⟩
        others := hothers }
  · cases hsome.symm.trans hs₁
    exact
      { h with
        walking := fun _ => { hwalk with leads := hleaf.symm.trans hleads }
        waiting := fun hwait => by simp [Mmu.popRsp] at hwait
        quiet := fun _ => ⟨ha, hnil⟩
        others := hothers }

theorem drainResponse (hd : s.drainResponse m p = some s') : WalkInv answers s' := by
  rcases drainResponse_cases hd with ⟨_, rfl⟩ | ⟨rsp, rest, hq, hm, hw, _⟩ |
    ⟨rsp, rest, s₁, hq, hm, _, hs₁, rfl⟩ | ⟨rsp, rest, hq, hm, rfl⟩
  · exact h
  · exact absurd (h.marked_response hq hm).2.1 hw
  · obtain ⟨rfl, hw, rfl, haddr, ha, hnil⟩ := h.marked_response hq hm
    exact h.takeAnswer hw haddr ha hnil hs₁
  · exact h.popRsp_of_unmarked hq hm

section
variable (hs : s.ptw.state = .fill)
include hs

theorem leaf_of_fill :
    leafFrom m mem s.ptw.vaddr (m.ptLevel - 1) (getBasePpn s.satp) =
      some ⟨s.ptw.finalPpn, s.ptw.leafLevel, s.ptw.flags⟩ := by
  rw [← (h.walking (by simp [hs])).leads, Ptw.leads, hs]

theorem translate_of_fill : translate s.satp s.ptw.origReq.addr = some (s.ptw.pa) := by
  have hwalk := h.walking (by simp [hs])
  rw [← hwalk.vaddr, translate_of_leaf hwalk.trans (h.leaf_of_fill hs), Ptw.pa]

theorem fill : WalkInv answers { s with tlb := s.filled } := by
  have hc := h.coherent.fill (h.walking (by simp [hs])).trans (h.leaf_of_fill hs) s.ptw.flags
  exact { h with coherent := by simpa only [Mmu.filled, Ptw.pa] using hc }

theorem idle : WalkInv answers { s with ptw := { s.ptw with state := .idle } } :=
  { h with
    walking := fun hne => absurd rfl hne
    waiting := fun hw => by simp at hw
    quiet := fun _ => h.quiet (by simp [hs]) }

end

theorem runPtw : WalkInv answers (s.runPtw m) := by
  rcases runPtw_cases s with ⟨_, heq⟩ | ⟨hs, _, heq⟩ | ⟨hs, heq⟩ | ⟨hs, _, heq⟩ |
    ⟨hs, heq⟩
  · rw [heq]
    exact h
  · have hwalk := h.walking (by simp [hs])
    rw [heq]
    exact
      { h with
        walking := fun _ => { hwalk with leads := by simpa [Ptw.leads, hs] using hwalk.leads }
        waiting := fun hw => by simp [hs] at hw
        quiet := fun _ => h.quiet (by simp [hs]) }
  · have hwalk := h.walking (by simp [hs])
    obtain ⟨ha, hnil⟩ := h.quiet (by simp [hs])
    rw [heq]
    exact
      { h with
        walking := fun _ =>
        { hwalk with leads := by simpa [Ptw.leads, hs, Mmu.sendReq] using hwalk.leads }
        waiting := fun _ => ⟨rfl, _, fetchesOf_pteFetch s _, .inl ⟨ha, hnil⟩⟩
        quiet := fun hne => absurd rfl hne }
  · rw [heq]
    exact h.fill hs
  · rw [heq]
    have htag := (h.walking (by simp [hs])).tag
    apply WalkInv.sendReq ((h.fill hs).idle hs)
    exact htag

theorem forwardRequest (p : ℕ) : WalkInv answers (s.forwardRequest m p) := by
  rcases forwardRequest_cases s p with ⟨_, heq⟩ | ⟨req, _, heq⟩ |
    ⟨req, rest, hq, _, _, heq⟩ |
    ⟨req, rest, ppn, hq, _, _, _, heq⟩ | ⟨req, rest, hq, hn, _, hs, heq⟩
  · rw [heq]
    exact h
  · rw [heq]
    exact h.looked
  · rw [heq]
    exact (h.sendReq (h.tags p req (by simp [hq]))).popReq
  · rw [heq]
    have htag : marked req.tag = false := h.tags p req (by simp [hq])
    apply popReq
    apply sendReq h.looked
    exact htag
  · rw [heq]
    exact (h.looked.startPtw hs hn (h.tags p req (by simp [hq]))).popReq

end

end WalkInv

end VortexGpu.Simx

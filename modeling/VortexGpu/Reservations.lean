import VortexGpu.CacheBank
import VortexGpu.Runs

/-!
# Reservations at the last-level cache

The banks of the last-level cache execute LR and SC with their reservation tables. `Llc` is the
cache with all its banks and the log of the requests served. A bank may tick at any time. An SC that
succeeds follows an LR of its hart to the same line, with no other LR of the hart and no write of
another hart in between, as long as a hart executes no LR while another bank still holds a
reservation of it and no atomic goes to memory while another hart has its line reserved.
-/

namespace VortexGpu.Cache
open Option Runs Function

namespace AmoUnit

variable {u : AmoUnit} {h h' line line' : ℕ}

theorem mem_reserve : (h', line') ∈ u.reserve h line ↔
    (h' = h ∧ line' = line) ∨ (h' ≠ h ∧ (h', line') ∈ u) := by
  simp [reserve, and_comm]

theorem mem_invalidate : (h', line') ∈ u.invalidate line h ↔
    (h', line') ∈ u ∧ (line' = line → h' = h) := by
  simp only [invalidate, List.mem_filter, decide_eq_true_eq]
  tauto

theorem mem_clear : (h', line') ∈ u.clear h line ↔ (h', line') ∈ u ∧
    ¬ (h' = h ∧ line' = line) := by
  simp only [clear, List.mem_filter, decide_eq_true_eq, ne_eq, Prod.mk.injEq]

end AmoUnit

namespace Mshr

def All (P : BankReq → Prop) (m : Mshr) : Prop :=
  ∀ i, m.type i ≠ .none → P (m.entries i).bankReq

variable {P : BankReq → Prop} {m m' : Mshr} {N i : ℕ} {k : SectorKey} {req : BankReq}

theorem All.enqueue (h : m.All P) (hreq : P req) (he : m.enqueue N req k = some (m', i)) :
    m'.All P := by
  obtain ⟨-, -, -, rfl⟩ := enqueue_some he
  intro j hj
  by_cases hji : j = i
  · subst hji
    simpa using hreq
  · simp only [type, update_of_ne hji] at hj ⊢
    exact h j hj

theorem All.setType (h : m.All P) (t : ReqType)
    (hP : t ≠ .none → P { (m.entries i).bankReq with type := t }) :
    ∀ j, (m.setType i t j).bankReq.type ≠ .none → P (m.setType i t j).bankReq := by
  intro j hj
  by_cases hji : j = i
  · subst hji
    simp only [Mshr.setType, update_self] at hj ⊢
    exact hP hj
  · simp only [Mshr.setType, update_of_ne hji] at hj ⊢
    exact h j hj

end Mshr

theorem split_append {α : Type} {A R before after : List α} {e : α}
    (h : A ++ R = before ++ e :: after) :
    (∃ rest, A = before ++ e :: rest) ∨ ∃ start, before = A ++ start ∧
    R = start ++ e :: after := by
  rcases List.append_eq_append_iff.mp h with ⟨start, hb, hr⟩ | ⟨rest, ha, hr⟩
  · exact .inr ⟨start, hb, hr⟩
  · cases rest with
    | nil => exact .inr ⟨[], by simpa using ha.symm, by simpa using hr.symm⟩
    | cons x rest =>
      obtain ⟨rfl, -⟩ := List.cons.injEq _ _ _ _ ▸ hr
      exact .inl ⟨rest, ha⟩

open AmoUnit CacheConfig

section
variable [CacheConfig]

/-- A request in the bank that its address belongs to, as admission makes it: only stores take the
write path, exactly the read-modify-writes are on their way to memory, and only a write-through
store may have been answered already. -/
def BankReq.Routed (bankId : ℕ) (r : BankReq) : Prop :=
  r.type ≠ .fill →
    addrBankId r.addr = bankId ∧ r.write = decide (r.op = .st) ∧
      (r.op.isAmoRmw = true ↔ r.type = .amoProbe) ∧ (r.skipCoreRsp = true → writeBack = false)

namespace BankReq.Routed

variable {bankId : ℕ} {r : BankReq}

theorem retype (h : r.Routed bankId) {t : ReqType} (hr : r.type = .core ∨ r.type = .replay)
    (ht : t = .core ∨ t = .replay) : ({ r with type := t } : BankReq).Routed bankId := by
  intro _
  obtain ⟨hbank, hwrite, hrmw, hskip⟩ := h (by rcases hr with hr | hr <;> simp [hr])
  refine ⟨hbank, hwrite, ?_, hskip⟩
  rw [hrmw]
  rcases hr with hr | hr <;> rcases ht with ht | ht <;> simp [hr, ht]

theorem skip (h : r.Routed bankId) (hwt : writeBack = false) :
    ({ r with skipCoreRsp := true } : BankReq).Routed bankId := by
  intro ht
  obtain ⟨hbank, hwrite, hrmw, -⟩ := h ht
  exact ⟨hbank, hwrite, hrmw, fun _ => hwt⟩

end BankReq.Routed

/-- The requests of a bank are its own, in the pipe and in the registers. -/
structure CacheBank.Routed (bankId : ℕ) (b : CacheBank) : Prop where
  pipe : ∀ e ∈ b.pipeReq, e.1.Routed bankId
  mshr : b.mshr.All (BankReq.Routed bankId)

namespace Mshr

variable {bankId N i : ℕ} {m m' : Mshr} {req : BankReq}

section
variable (h : m.All (BankReq.Routed bankId))
include h

theorem All.mark (ht : m.type i = .core) :
    ({ (m.entries i).bankReq with type := .replay } : BankReq).Routed bankId :=
  (h i (by simp [ht])).retype (.inl ht) (.inr rfl)

theorem All.replay (hr : m.replay N i = some m') : m'.All (BankReq.Routed bankId) := by
  obtain ⟨-, rfl⟩ := replay_some hr
  intro j hj
  simp only [type] at hj ⊢
  split_ifs at hj ⊢ with hm
  · simp only [waitsFor, Bool.and_eq_true, decide_eq_true_eq] at hm
    exact h.setType .replay (fun _ => h.mark hm.2.1) j hj
  · exact h j hj

theorem All.deferToReplay (hr : m.deferToReplay i = some m') : m'.All (BankReq.Routed bankId) := by
  obtain ⟨ht, rfl⟩ := deferToReplay_some hr
  exact h.setType .replay fun _ => h.mark ht

theorem All.dequeue (hr : m.dequeue N = some (m', req)) :
    m'.All (BankReq.Routed bankId) ∧ req.type = .replay ∧ req.Routed bankId := by
  obtain ⟨i, hi, rfl, rfl⟩ := dequeue_some hr
  have ht : m.type i = .replay := (nextReplay_some hi).2.1
  exact ⟨h.setType .none fun hn => absurd rfl hn, ht, h i (by simp [ht])⟩

end

end Mshr

namespace CacheBank

variable {b b' : CacheBank} {bankId memSlots rspSlots way hit : ℕ} {req : BankReq}
  {k : SectorKey} {set : CacheSet} {sent : Sent}

theorem Routed.tail (h : b.Routed bankId) : ∀ e ∈ b.pipeReq.tail, e.1.Routed bankId :=
  fun e he => h.pipe e (List.mem_of_mem_tail he)

omit [CacheConfig] in
theorem leavePipe_some (h : b.leavePipe k = some b') : b' = { b.popPipe with
      pendingMshrSize := b.pendingMshrSize - 1
      pipeCoreLines := b.pipeCoreLines.erase (k.setId, k.addrTag) } := by
  simp only [leavePipe] at h
  split_ifs at h
  exact (some.inj h).symm

theorem leavePipe_routed (hl : b.leavePipe k = some b')
    (hp : ∀ e ∈ b.pipeReq, e.1.Routed bankId)
    (hm : b.mshr.All (BankReq.Routed bankId)) : b'.Routed bankId := by
  rw [leavePipe_some hl]
  exact ⟨Routed.tail ⟨hp, hm⟩, hm⟩

theorem breakReservations_eq (b : CacheBank) (hllc : isLlc) (req : BankReq) :
    b.breakReservations req =
    { b with amoUnit := b.amoUnit.invalidate (lineAddr req.addr) req.hartId } := by
  simp [breakReservations, hllc]

end CacheBank

def MemRsp.Succeeds (req : BankReq) (rsp : MemRsp) : Prop :=
  rsp.data.elim 0 (amoLoadWord · (req.addr % blockSize) (CacheBank.amoWidth req)) = 0

instance (req : BankReq) (rsp : MemRsp) : Decidable (rsp.Succeeds req) :=
  inferInstanceAs (Decidable (_ = _))

/-- LR reserves, SC gives the reservation back and breaks the others if it stores, a store breaks
the others. -/
def AmoUnit.serve (u : AmoUnit) (req : BankReq) : AmoUnit :=
  let line := lineAddr req.addr
  match req.op with
  | .amoLr => u.reserve req.hartId line
  | .amoSc =>
    if u.check req.hartId line then (u.clear req.hartId line).invalidate line req.hartId
    else u.clear req.hartId line
  | .st => u.invalidate line req.hartId
  | _ => u

/-- An SC is answered with whether its hart has the line reserved. -/
abbrev AmoUnit.Answers (u : AmoUnit) (req : BankReq) (rsp : Option MemRsp) : Prop :=
  req.op = .amoSc → ∃ r,
    rsp = some r ∧ (r.Succeeds req ↔ u.check req.hartId (lineAddr req.addr))

/-- Either nothing takes effect and the table stays, or `req` does. -/
inductive Effect (u : AmoUnit) (req : BankReq) :
    AmoUnit → List (BankReq × Option MemRsp) → Prop
  | quiet : Effect u req u []
  | serves {rsp : Option MemRsp} (sc : u.Answers req rsp) :
      Effect u req (u.serve req) [(req, rsp)]

variable {req : BankReq}

theorem Effect.store {u : AmoUnit} {rsp : Option MemRsp} (h : req.op = .st) :
    Effect u req (u.invalidate (lineAddr req.addr) req.hartId) [(req, rsp)] := by
  have hserve : Effect u req (u.serve req) [(req, rsp)] := .serves (by simp [h])
  simpa only [serve, h] using hserve

theorem Effect.plain {u : AmoUnit} {rsp : Option MemRsp} (hst : req.op ≠ .st)
    (hlr : req.op ≠ .amoLr) (hsc : req.op ≠ .amoSc) : Effect u req u [(req, rsp)] := by
  have hserve : Effect u req (u.serve req) [(req, rsp)] := .serves fun h => absurd h hsc
  have hu : u.serve req = u := by
    cases hop : req.op <;> simp_all [serve]
  rwa [hu] at hserve

theorem succeeds_store_iff {rsp : MemRsp} {v : ℕ} (hv : v < 2)
    (h : rsp.data =
      some (amoStoreWord zeroBlock (req.addr % blockSize) (CacheBank.amoWidth req) v)) :
    rsp.Succeeds req ↔ v = 0 := by
  have hsmall : v < 256 ^ 2 ^ (CacheBank.amoWidth req) := by
    refine lt_of_lt_of_le (show v < 256 ^ 1 by omega) (Nat.pow_le_pow_right (by norm_num) ?_)
    exact Nat.one_le_two_pow
  simp only [MemRsp.Succeeds, h, elim_some, amoLoadWord, amoStoreWord, ByteMem.readLE_writeBytes,
    Nat.mod_eq_of_lt hsmall]

namespace CacheBank

variable {b b' : CacheBank} {bankId memSlots rspSlots way hit : ℕ} {req : BankReq}
  {k : SectorKey} {set : CacheSet} {sent : Sent}

omit [CacheConfig] in
theorem isLrSc_of (h : req.op.isAtomic = true) (hr : req.op.isAmoRmw = false) :
    req.op = .amoLr ∨ req.op = .amoSc := by
  cases hop : req.op <;> simp_all [MemOp.isAtomic, MemOp.isAmoRmw]

theorem commitAmo_some (hop : req.op = .amoLr ∨ req.op = .amoSc)
    (h : b.commitAmo bankId req hit memSlots rspSlots = some (some (b', sent))) :
    Effect b.amoUnit req b'.amoUnit sent.served ∧ b'.pipeReq = b.pipeReq ∧
    b'.mshr = b.mshr := by
  have hcompute (old rhs : ℕ) : ∃ r,
      amoCompute req.op (amoWidth req) old rhs req.flags.amoUnsigned = some r := by
    rcases hop with hop | hop <;> exact ⟨_, by rw [hop]; rfl⟩
  simp only [commitAmo] at h
  split at h
  · simp at h
  split at h
  · simp at h
  obtain ⟨r, hr⟩ := hcompute _ _
  rw [hr] at h
  simp only [bind_eq_bind, bind_some] at h
  rcases hop with hop | hop
  · simp only [hop, reduceCtorEq, ne_eq, not_true_eq_false, decide_false, Bool.false_and,
      Bool.false_eq_true, ite_false, ite_true] at h
    cases h
    refine ⟨?_, rfl, rfl⟩
    rw [show b.amoUnit.reserve req.hartId (lineAddr req.addr) = b.amoUnit.serve req by
      simp only [serve, hop]]
    exact .serves fun hsc => by simp [hop] at hsc
  · have hserve : b.amoUnit.serve req = if b.amoUnit.check req.hartId (lineAddr req.addr) then
        (b.amoUnit.clear req.hartId (lineAddr req.addr)).invalidate (lineAddr req.addr) req.hartId
        else b.amoUnit.clear req.hartId (lineAddr req.addr) := by
      simp only [serve, hop]
    cases hcheck : b.amoUnit.check req.hartId (lineAddr req.addr) with
    | true | false =>
      simp only [hop, hcheck, reduceCtorEq, ne_eq, not_false_eq_true, decide_true, Bool.not_true,
        Bool.and_false, Bool.not_false, Bool.and_true, Bool.false_eq_true, ite_true, ite_false] at h
      cases h
      refine ⟨?_, rfl, rfl⟩
      simp only [hcheck, Bool.false_eq_true, ite_true, ite_false] at hserve
      rw [← hserve]
      refine .serves fun _ => ⟨_, rfl, ?_⟩
      rw [hcheck, succeeds_store_iff (by norm_num) rfl]
      simp

theorem emitWritethrough_some (hllc : isLlc)
    (h : b.emitWritethrough bankId req k memSlots rspSlots = some (b', sent)) :
    b'.amoUnit = b.amoUnit.invalidate (lineAddr req.addr) req.hartId ∧ b'.pipeReq = b.pipeReq ∧
      b'.mshr = b.mshr ∧ ∃ rsp, sent.served = [(req, rsp)] := by
  simp only [emitWritethrough, breakReservations_eq b hllc] at h
  split at h
  · cases h
  split at h
  · cases h
  cases h
  exact ⟨rfl, rfl, rfl, _, rfl⟩

/-- The bank after serving the request at the end of its pipe. -/
structure Serves (bankId : ℕ) (b : CacheBank) (req : BankReq) (b' : CacheBank)
    (sent : Sent) : Prop where
  effect : Effect b.amoUnit req b'.amoUnit sent.served
  routed : b'.Routed bankId

theorem Serves.stall (hb : b.Routed bankId) : Serves bankId b req b Sent.nothing := ⟨.quiet, hb⟩

theorem processAmoProbe_serves (hb : b.Routed bankId) (hreq : req.op.isAmoRmw = true)
    (h : b.processAmoProbe bankId req memSlots = some (b', sent)) :
    Serves bankId b req b' sent := by
  simp only [processAmoProbe] at h
  split at h
  · cases h
  split at h
  · cases h
    exact .stall hb
  split at h
  · cases h
    exact .stall hb
  · cases h
    refine ⟨.plain ?_ ?_ ?_, hb.tail, hb.mshr⟩ <;> rintro hop <;>
      simp [hop, MemOp.isAmoRmw] at hreq

theorem installFill_some (h : b.installFill req k set way = some b') :
    b'.amoUnit = b.amoUnit ∧ b'.pipeReq = b.pipeReq.tail ∧
      b.mshr.replay mshrSize req.mshrId = some b'.mshr := by
  simp only [installFill, bind_eq_bind, bind_eq_some_iff] at h
  obtain ⟨mshr, hm, h⟩ := h
  cases h
  exact ⟨rfl, rfl, hm⟩

theorem processFill_serves (hb : b.Routed bankId)
    (h : b.processFill bankId req memSlots = some (b', sent)) :
    Serves bankId b req b' sent ∧ sent.served = [] := by
  have hinstall (b₀ : CacheBank) {b₁ : CacheBank} {set way}
      (hu : b₀.amoUnit = b.amoUnit) (hp : b₀.pipeReq = b.pipeReq)
      (hm : b₀.mshr = b.mshr) {k} (hi : b₀.installFill req k set way = some b₁) :
      b₁.amoUnit = b.amoUnit ∧ b₁.Routed bankId := by
    obtain ⟨hu', hp', hm'⟩ := installFill_some hi
    refine ⟨hu'.trans hu, ?_, ?_⟩
    · rw [hp', hp]
      exact hb.tail
    · rw [hm] at hm'
      exact hb.mshr.replay hm'
  simp only [processFill] at h
  split at h
  · obtain ⟨b₁, hi, h⟩ := bind_eq_some_iff.mp h
    cases h
    obtain ⟨hu, hr⟩ := hinstall b rfl rfl rfl hi
    exact ⟨⟨hu ▸ .quiet, hr⟩, rfl⟩
  · split at h
    · cases h
      exact ⟨.stall hb, rfl⟩
    · obtain ⟨b₁, hi, h⟩ := bind_eq_some_iff.mp h
      cases h
      obtain ⟨hu, hr⟩ := hinstall (b.evict _ _).1 rfl rfl rfl hi
      exact ⟨⟨hu ▸ .quiet, hr⟩, rfl⟩

section
variable (hllc : isLlc) (hb : b.Routed bankId) (hreq : req.Routed bankId)
include hllc hb hreq

theorem processReplay_serves (ht : req.type = .replay)
    (h : b.processReplay bankId req memSlots rspSlots = some (b', sent)) :
    Serves bankId b req b' sent := by
  obtain ⟨-, hwrite, -, hrest⟩ := hreq (by simp [ht])
  simp only [processReplay] at h
  split at h
  · split at h
    · cases h
      exact ⟨.quiet, hb.tail, hb.mshr⟩
    split at h
    · cases h
      exact .stall hb
    split at h
    · cases h
      exact .stall hb
    · obtain ⟨⟨mshr, id⟩, he, h⟩ := bind_eq_some_iff.mp h
      cases h
      exact ⟨.quiet, hb.tail, hb.mshr.enqueue (hreq.retype (.inr ht) (.inl rfl)) he⟩
  · rename_i hit _
    split at h
    · rename_i hatomic
      split at h
      · cases h
      rename_i hnot
      split at h
      · cases h
      · cases h
        exact .stall hb
      · rename_i b₁ sent₁ hc
        cases h
        obtain ⟨heff, hp, hm⟩ := commitAmo_some (isLrSc_of hatomic (by simpa using hnot)) hc
        refine ⟨heff, ?_, ?_⟩
        · intro e he
          refine hb.tail e ?_
          simpa only [popPipe, putSet, hp] using he
        · simpa only [popPipe, putSet, hm] using hb.mshr
    · rename_i hatomic
      split at h
      · cases h
        exact .stall hb
      split at h
      · cases h
      rename_i hassert
      cases h
      have hunit : (if (req.write && writeBack) = true then
            (b.access req (key req.addr) hit).breakReservations req
          else b.access req (key req.addr) hit) =
          { b.access req (key req.addr) hit with
            amoUnit := if (req.write && writeBack) = true then
              b.amoUnit.invalidate (lineAddr req.addr) req.hartId else b.amoUnit } := by
        split_ifs
        · exact breakReservations_eq _ hllc req
        · rfl
      rw [hunit]
      refine ⟨?_, hb.tail, hb.mshr⟩
      simp only [popPipe]
      cases hw : req.write with
      | false =>
        cases hskip : req.skipCoreRsp with
        | true => exact .quiet
        | false =>
          simp only [Bool.false_and, Bool.false_eq_true, ite_false]
          refine .plain ?_ ?_ ?_ <;> intro hop <;> simp_all [MemOp.isAtomic]
      | true =>
        have hop : req.op = .st := by simpa [hw] using hwrite
        cases hskip : req.skipCoreRsp with
        | true =>
          simp only [hrest hskip, Bool.and_false, Bool.false_eq_true, ite_false, ite_true]
          exact .quiet
        | false =>
          have hwb : writeBack = true := by simpa [hw, hskip] using hassert
          simp only [hwb, Bool.and_true, ite_true, Bool.false_eq_true, ite_false]
          exact .store hop

section
variable (ht : req.type = .core)
include ht

theorem coreDefer_serves (h : b.coreDefer bankId req k memSlots rspSlots = some (b', sent)) :
    Serves bankId b req b' sent := by
  obtain ⟨-, hwrite, -, -⟩ := hreq (by simp [ht])
  simp only [coreDefer] at h
  split at h
  · rename_i hthrough
    rw [Bool.and_eq_true, Bool.not_eq_true'] at hthrough
    split at h
    · cases h
      exact .stall hb
    rename_i b₁ sent₁ hemit
    obtain ⟨hu, hp, hm, rsp, hserved⟩ := emitWritethrough_some hllc hemit
    split at h
    · cases h
    simp only [bind_eq_bind, bind_eq_some_iff] at h
    obtain ⟨⟨m, i⟩, he, m', hd, b₂, hl, h⟩ := h
    cases h
    have hskip := hreq.skip hthrough.2
    refine ⟨?_, ?_⟩
    · rw [leavePipe_some hl, hserved]
      simp only [popPipe, hu]
      exact .store (by simpa [hthrough.1] using hwrite)
    · rw [hm] at he
      refine leavePipe_routed hl ?_ ((hb.mshr.enqueue hskip he).deferToReplay hd)
      exact hp ▸ hb.pipe
  · split at h
    · cases h
    · simp only [bind_eq_bind, bind_eq_some_iff] at h
      obtain ⟨⟨m, i⟩, he, m', hd, b₂, hl, h⟩ := h
      cases h
      refine ⟨?_, leavePipe_routed hl hb.pipe ((hb.mshr.enqueue hreq he).deferToReplay hd)⟩
      rw [leavePipe_some hl]
      exact .quiet

theorem coreHit_serves (hatomic : req.op.isAtomic = false)
    (h : b.coreHit bankId req k hit memSlots rspSlots = some (b', sent)) :
    Serves bankId b req b' sent := by
  obtain ⟨-, hwrite, -, -⟩ := hreq (by simp [ht])
  simp only [coreHit] at h
  split at h
  · cases h
    exact .stall hb
  split at h
  · cases h
    exact .stall hb
  obtain ⟨b₁, hl, h⟩ := bind_eq_some_iff.mp h
  cases h
  rw [leavePipe_some hl]
  cases hw : req.write with
  | false =>
    refine ⟨?_, hb.tail, hb.mshr⟩
    refine .plain ?_ ?_ ?_ <;> intro hop <;> simp_all [MemOp.isAtomic]
  | true =>
    have hop : req.op = .st := by simpa [hw] using hwrite
    simp only [breakReservations_eq _ hllc, ite_true]
    exact ⟨.store hop, hb.tail, hb.mshr⟩

theorem coreMiss_serves (h : b.coreMiss bankId req k memSlots rspSlots = some (b', sent)) :
    Serves bankId b req b' sent := by
  obtain ⟨-, hwrite, -, -⟩ := hreq (by simp [ht])
  simp only [coreMiss] at h
  split at h
  · rename_i hthrough
    rw [Bool.and_eq_true, Bool.not_eq_true'] at hthrough
    split at h
    · cases h
      exact .stall hb
    split at h
    · cases h
      exact .stall hb
    rename_i b₁ sent₁ hemit
    obtain ⟨hu, hp, hm, rsp, hserved⟩ := emitWritethrough_some hllc hemit
    simp only [bind_eq_bind, bind_eq_some_iff] at h
    obtain ⟨m, he, b₂, hl, h⟩ := h
    cases h
    refine ⟨?_, leavePipe_routed hl ?_ ?_⟩
    · rw [leavePipe_some hl, hserved]
      simp only [popPipe, putSet, hu]
      exact .store (by simpa [hthrough.1] using hwrite)
    · simpa only [putSet, hp] using hb.pipe
    · split_ifs at he
      · obtain ⟨⟨m', i⟩, henq, rfl⟩ := map_eq_some_iff.mp he
        rw [hm] at henq
        exact hb.mshr.enqueue (hreq.skip hthrough.2) henq
      · cases he
        simpa only [putSet, hm] using hb.mshr
  · split at h
    · cases h
      exact .stall hb
    split at h
    · cases h
    simp only [bind_eq_bind, bind_eq_some_iff] at h
    obtain ⟨⟨m, i⟩, he, b₂, hl, h⟩ := h
    cases h
    refine ⟨?_, leavePipe_routed hl hb.pipe (hb.mshr.enqueue hreq he)⟩
    rw [leavePipe_some hl]
    exact .quiet

theorem processCore_serves (h : b.processCore bankId req memSlots rspSlots = some (b', sent)) :
    Serves bankId b req b' sent := by
  have hrmw : req.op.isAmoRmw = false := by
    have hiff := (hreq (by simp [ht])).2.2.1
    simpa [ht] using hiff
  simp only [processCore] at h
  split at h
  · exact coreMiss_serves hllc hb hreq ht h
  split at h
  · exact coreDefer_serves hllc hb hreq ht h
  split at h
  · rename_i hatomic
    split at h
    · cases h
    split at h
    · cases h
    · cases h
      exact .stall hb
    · rename_i b₁ sent₁ hc
      obtain ⟨b₂, hl, h⟩ := bind_eq_some_iff.mp h
      cases h
      obtain ⟨heff, hp, hm⟩ := commitAmo_some (isLrSc_of hatomic hrmw) hc
      refine ⟨?_, leavePipe_routed hl ?_ ?_⟩
      · rw [leavePipe_some hl]
        exact heff
      · simpa only [putSet, hp] using hb.pipe
      · simpa only [putSet, hm] using hb.mshr
  · rename_i hatomic
    exact coreHit_serves hllc hb hreq ht (by simpa using hatomic) h

end

end

def endOfPipe (b : CacheBank) : Option BankReq :=
  match b.pipeReq with
  | (req, d) :: _ => if d ≤ 1 then some req else none
  | [] => none

theorem Routed.age (hb : b.Routed bankId) : b.age.Routed bankId := by
  refine ⟨?_, hb.mshr⟩
  intro e he
  obtain ⟨e', he', rfl⟩ := List.mem_map.mp he
  exact hb.pipe e' he'

theorem processRequests_serves (hllc : isLlc) (hb : b.Routed bankId)
    (h : b.age.processRequests bankId memSlots rspSlots = some (b', sent)) :
    (b'.Routed bankId ∧ b'.amoUnit = b.amoUnit ∧ sent.served = []) ∨
      ∃ req, b.endOfPipe = some req ∧ (sent.served ≠ [] → addrBankId req.addr = bankId) ∧
        Serves bankId b.age req b' sent := by
  simp only [processRequests] at h
  split at h
  · rename_i req rest hpipe
    have hreq : req.Routed bankId := hb.age.pipe (req, 0) (by simp [hpipe])
    have hend : b.endOfPipe = some req := by
      cases hq : b.pipeReq with
      | nil => simp [CacheBank.age, hq] at hpipe
      | cons e q =>
        simp only [CacheBank.age, hq, List.map_cons, List.cons.injEq, Prod.mk.injEq] at hpipe
        obtain ⟨⟨rfl, hd⟩, -⟩ := hpipe
        simp only [endOfPipe, hq]
        rw [if_pos (by omega)]
    split at h
    · cases h
      exact .inl ⟨⟨hb.age.tail, hb.mshr⟩, rfl, rfl⟩
    · rename_i ht
      obtain ⟨hbank, -, hrmw, -⟩ := hreq (by simp [ht])
      exact .inr ⟨req, hend, fun _ => hbank, processAmoProbe_serves hb.age (hrmw.mpr ht) h⟩
    · obtain ⟨hserves, hnone⟩ := processFill_serves hb.age h
      exact .inr ⟨req, hend, fun hne => absurd hnone hne, hserves⟩
    · rename_i ht
      have hbank := (hreq (by simp [ht])).1
      exact .inr ⟨req, hend, fun _ => hbank, processReplay_serves hllc hb.age hreq ht h⟩
    · rename_i ht
      have hbank := (hreq (by simp [ht])).1
      exact .inr ⟨req, hend, fun _ => hbank, processCore_serves hllc hb.age hreq ht h⟩
  · cases h
    exact .inl ⟨hb.age, rfl, rfl⟩

def Plain (op : MemOp) : Prop := op ≠ .st ∧ op.isAtomic = false

theorem processForward_serves {fwd : Bool} (hb : b.Routed bankId)
    (h : b.processForward rspSlots = some (b', sent, fwd)) :
    b'.Routed bankId ∧ b'.amoUnit = b.amoUnit ∧ ∀ e ∈ sent.served, Plain e.1.op := by
  have hquiet (active : Bool) : ({ b with fwdActive := active } : CacheBank).Routed bankId ∧
      b.amoUnit = b.amoUnit ∧
      ∀ e ∈ Sent.nothing.served,
      Plain e.1.op := ⟨⟨hb.pipe, hb.mshr⟩, rfl, by simp [Sent.nothing]⟩
  simp only [processForward] at h
  split at h
  · cases h
    exact hquiet _
  split at h
  · cases h
    exact hquiet _
  split at h
  · cases h
    exact hquiet _
  rename_i i hi
  split at h
  · cases h
    exact hquiet _
  rename_i hhead
  split at h
  · cases h
    exact hquiet _
  split at h
  · cases h
    exact hquiet _
  split at h
  · cases h
    exact hquiet _
  obtain ⟨⟨m, req⟩, hd, h⟩ := bind_eq_some_iff.mp h
  cases h
  obtain ⟨hall, ht, hreq⟩ := hb.mshr.dequeue hd
  obtain ⟨i', hi', rfl, -⟩ := Mshr.dequeue_some hd
  cases hi.symm.trans hi'
  refine ⟨⟨hb.pipe, hall⟩, rfl, ?_⟩
  intro e he
  obtain rfl : e = _ := List.mem_singleton.mp he
  simp only [not_or, Bool.not_eq_true] at hhead
  have hwrite := (hreq (by simp [ht])).2.1
  exact ⟨by simpa [hhead.2.1] using hwrite, hhead.2.2⟩

theorem Routed.push (hb : b.Routed bankId) (hreq : req.Routed bankId) :
    (b.pushPipe req).Routed bankId := by
  refine ⟨?_, hb.mshr⟩
  intro e he
  rcases List.mem_append.mp he with he | he
  · exact hb.pipe e he
  · obtain rfl : e = _ := List.mem_singleton.mp he
    exact hreq

theorem stamped_routed {r : MemReq} {t : ReqType} (hbank : addrBankId r.addr = bankId)
    (ht : r.op.isAmoRmw = true ↔ t = .amoProbe) : (b.stamped r t).Routed bankId :=
  fun _ => ⟨hbank, rfl, ht, by simp [stamped, BankReq.reset]⟩

variable {taken : Taken}

theorem takeCoreReq_routed {r : MemReq} (hllc : isLlc) (hb : b.Routed bankId)
    (hbank : addrBankId r.addr = bankId) (h : b.takeCoreReq r = some (b', sent, taken)) :
    b'.Routed bankId ∧ b'.amoUnit = b.amoUnit ∧ sent.served = [] := by
  simp only [takeCoreReq] at h
  split at h
  · rename_i hamo
    rw [Bool.and_eq_true] at hamo
    have hrmw : r.op.isAmoRmw = true := by simpa [hllc] using hamo.2
    simp only [takeAmo] at h
    split_ifs at h
    · cases h
      exact ⟨hb, rfl, rfl⟩
    · cases h
      exact ⟨hb, rfl, rfl⟩
    · cases h
      exact ⟨hb, rfl, rfl⟩
    · cases h
      have hpush := hb.push (stamped_routed (b := b) hbank (t := .amoProbe) (by simp [hrmw]))
      exact ⟨⟨hpush.pipe, hb.mshr⟩, rfl, rfl⟩
  · rename_i hamo
    have hrmw : r.op.isAmoRmw = false := by
      cases hop : r.op <;> simp_all [MemOp.isAtomic, MemOp.isAmoRmw]
    have hreq : (b.stamped r .core).Routed bankId := stamped_routed hbank (by simp [hrmw])
    split at h
    · cases h
      exact ⟨hb, rfl, rfl⟩
    split at h
    · simp only [coalesce] at h
      split at h
      · cases h
      simp only [bind_eq_bind, bind_eq_some_iff] at h
      obtain ⟨⟨m, i⟩, he, m', hd, h⟩ := h
      cases h
      refine ⟨⟨hb.pipe, ?_⟩, rfl, rfl⟩
      have hall := hb.mshr.enqueue hreq he
      split_ifs at hd
      · cases hd
        exact hall
      · exact hall.deferToReplay hd
    · cases h
      exact ⟨⟨(hb.push hreq).pipe, hb.mshr⟩, rfl, rfl⟩

theorem processInputs_routed {fwd : Bool} {coreReq : Option MemReq} {memRsp : Option MemRsp}
    (hllc : isLlc) (hb : b.Routed bankId) (hbank : ∀ r ∈ coreReq, addrBankId r.addr = bankId)
    (h : b.processInputs bankId fwd coreReq memRsp rspSlots = some (b', sent, taken)) :
    b'.Routed bankId ∧ b'.amoUnit = b.amoUnit ∧ sent.served = [] := by
  simp only [processInputs] at h
  split at h
  · cases h
    exact ⟨hb, rfl, rfl⟩
  split at h
  · obtain ⟨⟨m, req⟩, hd, h⟩ := bind_eq_some_iff.mp h
    cases h
    obtain ⟨hall, -, hreq⟩ := hb.mshr.dequeue hd
    exact ⟨Routed.push ⟨hb.pipe, hall⟩ hreq, rfl, rfl⟩
  split at h
  · simp only [takeMemRsp] at h
    split_ifs at h
    · cases h
      exact ⟨hb, rfl, rfl⟩
    · cases h
      exact ⟨⟨hb.pipe, hb.mshr⟩, rfl, rfl⟩
    · cases h
      exact ⟨hb.push fun ht => absurd rfl ht, rfl, rfl⟩
  split at h
  · exact takeCoreReq_routed hllc hb (hbank _ rfl) h
  · cases h
    exact ⟨hb, rfl, rfl⟩

theorem tick_serves {p : Ports} (hllc : isLlc) (hb : b.Routed bankId)
    (hbank : ∀ r ∈ p.coreReq, addrBankId r.addr = bankId)
    (h : b.tick bankId p = some (b', sent, taken)) :
    b'.Routed bankId ∧ ∃ served reads, sent.served = served ++ reads ∧
    (∀ e ∈ reads, Plain e.1.op) ∧ ((b'.amoUnit = b.amoUnit ∧ served = []) ∨
        ∃ req, b.endOfPipe = some req ∧ (served ≠ [] → addrBankId req.addr = bankId) ∧
          Effect b.amoUnit req b'.amoUnit served) := by
  simp only [tick, bind_eq_bind, bind_eq_some_iff] at h
  obtain ⟨⟨b₁, s₁⟩, h₁, ⟨b₂, s₂, f⟩, h₂, ⟨b₃, s₃, t⟩, h₃, ht⟩ := h
  cases ht
  have hr₁ : b₁.Routed bankId := by
    rcases processRequests_serves hllc hb h₁ with ⟨hr, -⟩ | ⟨_, -, -, hs⟩
    · exact hr
    · exact hs.routed
  obtain ⟨hr₂, hu₂, hreads⟩ := processForward_serves hr₁ h₂
  obtain ⟨hr₃, hu₃, hserved₃⟩ := processInputs_routed hllc hr₂ hbank h₃
  refine ⟨hr₃, s₁.served, s₂.served, by simp [Sent.append, hserved₃], hreads, ?_⟩
  rw [hu₃, hu₂]
  rcases processRequests_serves hllc hb h₁ with ⟨-, hu, hs⟩ | ⟨req, hend, hbank', hs⟩
  · exact .inl ⟨hu, hs⟩
  · exact .inr ⟨req, hend, hbank', hs.effect⟩

end CacheBank

abbrev Event := BankReq × Option MemRsp

namespace Event

def Reserves (e : Event) (hart : ℕ) : Prop := e.1.op = .amoLr ∧ e.1.hartId = hart

def StoresConditionally (e : Event) : Prop :=
  e.1.op = .amoSc ∧ ∃ r, e.2 = some r ∧ r.Succeeds e.1

def Writes (e : Event) (line : ℕ) : Prop :=
  lineAddr e.1.addr = line ∧ (e.1.op = .st ∨ e.1.op.isAmoRmw = true ∨ e.StoresConditionally)

theorem Writes.op {e : Event} {line : ℕ} (h : e.Writes line) :
    e.1.op = .st ∨ e.1.op.isAmoRmw = true ∨ e.1.op = .amoSc :=
  h.2.imp_right (Or.imp_right And.left)

end Event

/-- The last LR of the hart in the log was to the line, and no other hart has written to the line
since then. -/
def Reserved (log : List Event) (hart line : ℕ) : Prop :=
  ∃ before lr after, log = before ++ lr :: after ∧ lr.Reserves hart ∧
    lineAddr lr.1.addr = line ∧ (∀ e ∈ after, ¬ Event.Reserves e hart) ∧
    ∀ e ∈ after, Event.Writes e line → e.1.hartId = hart

structure Llc where
  banks : ℕ → CacheBank
  log : List Event

structure BankTick where
  bank : ℕ
  ports : CacheBank.Ports

namespace Llc

def reset : Llc := ⟨fun _ => CacheBank.reset, []⟩

def step (s : Llc) (t : BankTick) : Option (Llc × Unit) := do
  let (b, sent, _) ← (s.banks t.bank).tick t.bank t.ports
  some (⟨update s.banks t.bank b, s.log ++ sent.served⟩, ())

def Lawful (t : BankTick) : Prop :=
  t.bank < 2 ^ B ∧ ∀ r ∈ t.ports.coreReq, addrBankId r.addr = t.bank

instance (t : BankTick) : Decidable (Lawful t) := inferInstanceAs (Decidable (_ ∧ _))

/-- An LR belongs to a hart without a reservation in another bank, and a read-modify-write is to a
line that no other hart has reserved. -/
abbrev Alone (s : Llc) (i : ℕ) (req : BankReq) : Prop :=
  (req.op = .amoLr → ∀ j < 2 ^ B, j ≠ i →
    ∀ e ∈ (s.banks j).amoUnit, e.1 ≠ req.hartId) ∧
  (req.op.isAmoRmw = true → ∀ e ∈ (s.banks i).amoUnit, e.2 = lineAddr req.addr →
    e.1 = req.hartId)

/-- The request at the end of the pipe finds no reservation that it would miss. -/
def Exclusive (s : Llc) (t : BankTick) : Prop :=
  ∀ req ∈ (s.banks t.bank).endOfPipe, s.Alone t.bank req

instance (s : Llc) (t : BankTick) : Decidable (s.Exclusive t) :=
  inferInstanceAs (Decidable (∀ req ∈ (s.banks t.bank).endOfPipe, _))

structure Inv (s : Llc) : Prop where
  routed : ∀ i, (s.banks i).Routed i
  reserved : ∀ i hart line, (hart, line) ∈ (s.banks i).amoUnit →
    i < 2 ^ B ∧ line / 2 ^ L % 2 ^ B = i ∧ Reserved s.log hart line
  sound : ∀ before e after, s.log = before ++ e :: after → e.StoresConditionally →
    Reserved before e.1.hartId (lineAddr e.1.addr)

end Llc

namespace Reserved

variable {log es : List Event} {hart line : ℕ}

theorem append (h : Reserved log hart line) (hlr : ∀ e ∈ es, ¬ Event.Reserves e hart)
    (hw : ∀ e ∈ es, Event.Writes e line → e.1.hartId = hart) :
    Reserved (log ++ es) hart line := by
  obtain ⟨before, lr, after, rfl, hr, hl, hnone, hwrites⟩ := h
  refine ⟨before, lr, after ++ es, by simp, hr, hl, ?_, ?_⟩
  · intro e he
    exact (List.mem_append.mp he).elim (hnone e) (hlr e)
  · intro e he
    exact (List.mem_append.mp he).elim (hwrites e) (hw e)

theorem of_lr {e : Event} (h : e.Reserves hart) : Reserved (log ++ [e]) hart (lineAddr e.1.addr) :=
  ⟨log, e, [], rfl, h, rfl, by simp, by simp⟩

end Reserved

namespace Llc

variable {s : Llc} {t : BankTick}

theorem Inv.reads (h : s.Inv) {reads : List Event}
    (hreads : ∀ e ∈ reads, CacheBank.Plain e.1.op) : Inv ⟨s.banks, s.log ++ reads⟩ := by
  have hlr (e) (he : e ∈ reads) (hart : ℕ) : ¬ Event.Reserves e hart := by
    intro hr
    have hatomic := (hreads e he).2
    simp [hr.1, MemOp.isAtomic] at hatomic
  have hw (e) (he : e ∈ reads) (line : ℕ) : ¬ Event.Writes e line := by
    intro hwrites
    obtain ⟨hst, hatomic⟩ := hreads e he
    have hwrites := hwrites.op
    cases hop : e.1.op <;> simp_all [MemOp.isAtomic, MemOp.isAmoRmw]
  refine ⟨h.routed, ?_, ?_⟩
  · intro i hart line hmem
    obtain ⟨hi, hbank, hres⟩ := h.reserved i hart line hmem
    exact ⟨hi, hbank, hres.append (fun e he => hlr e he hart) fun e he hwr =>
      absurd hwr (hw e he line)⟩
  · intro before e after hsplit hsc
    rcases split_append hsplit with ⟨rest, hlog⟩ | ⟨start, -, hr⟩
    · exact h.sound before e rest hlog hsc
    · have he : e ∈ reads := by simp [hr]
      exact absurd ⟨rfl, .inr (.inr hsc)⟩ (hw e he _)

theorem lineAddr_bank (addr : ℕ) : lineAddr addr / 2 ^ L % 2 ^ B = addrBankId addr := by
  rw [lineAddr, Nat.mul_div_cancel _ (Nat.two_pow_pos _), addrBankId]

theorem mem_serve {u : AmoUnit} {req : BankReq} {rsp : Option MemRsp} {hart line : ℕ}
    (hmem : (hart, line) ∈ u.serve req) (hsc : u.Answers req rsp)
    (hrmw : req.op.isAmoRmw = true → ∀ e ∈ u, e.2 = lineAddr req.addr → e.1 = req.hartId) :
    (req.op = .amoLr ∧ hart = req.hartId ∧ line = lineAddr req.addr) ∨
      ((hart, line) ∈ u ∧ ¬ Event.Reserves (req, rsp) hart ∧
        (Event.Writes (req, rsp) line → req.hartId = hart)) := by
  -- a request that writes nothing and reserves nothing keeps every entry
  have hkeep (hlr : req.op ≠ .amoLr) (hw : ¬ Event.Writes (req, rsp) line) (hu : (hart,
      line) ∈ u) :
      (hart, line) ∈ u ∧ ¬ Event.Reserves (req, rsp) hart ∧
        (Event.Writes (req, rsp) line → req.hartId = hart) :=
    ⟨hu, fun hr => hlr hr.1, fun h => absurd h hw⟩
  cases hop : req.op with
  | amoLr =>
    simp only [serve, hop, mem_reserve] at hmem
    rcases hmem with ⟨rfl, rfl⟩ | ⟨hne, hu⟩
    · exact .inl ⟨rfl, rfl, rfl⟩
    · exact .inr ⟨hu, fun hr => hne hr.2.symm,
        fun hw => by simpa [hop, MemOp.isAmoRmw] using hw.op⟩
  | amoSc =>
    obtain ⟨r, rfl, hiff⟩ := hsc hop
    simp only [serve, hop] at hmem
    right
    split_ifs at hmem with hcheck
    · obtain ⟨⟨hu, hne⟩, hother⟩ := by simpa only [mem_invalidate, mem_clear] using hmem
      have hline : line ≠ lineAddr req.addr := fun heq => hne ⟨hother heq, heq⟩
      exact hkeep (by simp [hop]) (fun hw => hline hw.1.symm) hu
    refine hkeep (by simp [hop]) ?_ (mem_clear.mp hmem).1
    rintro ⟨-, hst | hm | ⟨-, r', hr', hs⟩⟩
    · simp [hop] at hst
    · simp [hop, MemOp.isAmoRmw] at hm
    · cases hr'
      exact hcheck (hiff.mp hs)
  | st =>
    simp only [serve, hop, mem_invalidate] at hmem
    exact .inr ⟨hmem.1, fun hr => absurd hr.1 (by simp [hop]),
      fun hw => (hmem.2 hw.1.symm).symm⟩
  | ld | flush =>
    simp only [serve, hop] at hmem
    exact .inr (hkeep (by simp [hop]) (fun hw => by simpa [hop, MemOp.isAmoRmw] using hw.op) hmem)
  | amoSwap | amoAdd | amoAnd | amoOr | amoXor | amoMin | amoMax =>
    simp only [serve, hop] at hmem
    refine .inr ⟨hmem, fun hr => absurd hr.1 (by simp [hop]), ?_⟩
    intro hw
    exact (hrmw (by simp [hop, MemOp.isAmoRmw]) _ hmem hw.1.symm).symm

theorem Inv.serves (h : s.Inv) {i : ℕ} {b' : CacheBank} {req : BankReq} {rsp : Option MemRsp}
    (hi : i < 2 ^ B) (hrouted : b'.Routed i) (hbank : addrBankId req.addr = i)
    (halone : s.Alone i req) (hu : b'.amoUnit = (s.banks i).amoUnit.serve req)
    (hsc : (s.banks i).amoUnit.Answers req rsp) :
    Inv ⟨update s.banks i b', s.log ++ [(req, rsp)]⟩ := by
  refine ⟨(forall_update_iff s.banks fun j b => b.Routed j).mpr ⟨hrouted,
    fun j _ => h.routed j⟩, ?_, ?_⟩
  · intro j hart line hmem
    by_cases hj : j = i
    · subst hj
      simp only [update_self, hu] at hmem
      rcases mem_serve hmem hsc halone.2 with ⟨hop, rfl, rfl⟩ | ⟨hold, hnlr, hw⟩
      · exact ⟨hi, (lineAddr_bank _).trans hbank, .of_lr ⟨hop, rfl⟩⟩
      · obtain ⟨-, hline, hres⟩ := h.reserved j hart line hold
        exact ⟨hi, hline, hres.append (by simpa using hnlr) (by simpa using hw)⟩
    · simp only [update_of_ne hj] at hmem
      obtain ⟨hjB, hline, hres⟩ := h.reserved j hart line hmem
      refine ⟨hjB, hline, hres.append ?_ ?_⟩
      · intro e he hr
        obtain rfl : e = _ := List.mem_singleton.mp he
        exact halone.1 hr.1 j hjB hj _ hmem hr.2.symm
      intro e he hw
      obtain rfl : e = _ := List.mem_singleton.mp he
      -- a write to the line is in the bank of the line
      have hbank' := lineAddr_bank req.addr
      rw [hw.1, hline, hbank] at hbank'
      exact absurd hbank' hj
  · intro before e after hsplit hcond
    rcases split_append hsplit with ⟨rest, hlog⟩ | ⟨start, hbefore, hr⟩
    · exact h.sound before e rest hlog hcond
    obtain ⟨rfl, rfl⟩ : start = [] ∧ e = (req, rsp) := by
      cases start with
      | nil => exact ⟨rfl, (List.cons.inj hr).1.symm⟩
      | cons x xs => simp at hr
    rw [List.append_nil] at hbefore
    subst hbefore
    obtain ⟨hop, r, hrsp, hsucc⟩ := hcond
    obtain ⟨r', hr', hiff⟩ := hsc hop
    cases hrsp.symm.trans hr'
    exact (h.reserved i _ _ (List.mem_of_elem_eq_true (hiff.mp hsucc))).2.2

theorem Inv.step (hllc : isLlc) (h : s.Inv) (hlaw : Lawful t) (hex : s.Exclusive t) {s' : Llc}
    {out : Unit} (hstep : s.step t = some (s', out)) : s'.Inv := by
  simp only [Llc.step, bind_eq_bind, bind_eq_some_iff] at hstep
  obtain ⟨⟨b', sent, taken⟩, htick, hs'⟩ := hstep
  cases hs'
  obtain ⟨hrouted, served, reads, hsent, hreads, hcases⟩ :=
    CacheBank.tick_serves hllc (h.routed t.bank) hlaw.2 htick
  rw [hsent, ← List.append_assoc]
  have hquiet (hu : b'.amoUnit = (s.banks t.bank).amoUnit) :
      Inv ⟨update s.banks t.bank b', s.log⟩ := by
    refine ⟨(forall_update_iff s.banks fun j b => b.Routed j).mpr ⟨hrouted,
      fun j _ => h.routed j⟩, fun j hart line hmem => h.reserved j hart line ?_, h.sound⟩
    have hsame := (forall_update_iff s.banks fun j b => b.amoUnit = (s.banks j).amoUnit).mpr ⟨hu,
      fun _ _ => rfl⟩
    rwa [← hsame j]
  refine Inv.reads (s := ⟨update s.banks t.bank b', s.log ++ served⟩) ?_ hreads
  rcases hcases with ⟨hu, rfl⟩ | ⟨req, hend, hbank, heff⟩
  · simpa using hquiet hu
  generalize hu : b'.amoUnit = u' at heff
  cases heff with
  | quiet => simpa using hquiet hu
  | serves hsc => exact h.serves hlaw.1 hrouted (hbank (by simp)) (hex req hend) hu hsc

theorem Inv.reset : Inv reset := by
  refine ⟨fun i => ⟨by simp [Llc.reset, CacheBank.reset], ?_⟩, ?_, ?_⟩
  · intro j hj
    simp [Llc.reset, CacheBank.reset, Mshr.reset, Mshr.type, BankReq.reset] at hj
  · simp [Llc.reset, CacheBank.reset]
  · intro before e after hsplit
    simp [Llc.reset] at hsplit

/-- Every SC that succeeds was reserved: the last LR of its hart before it was to its line, and no
other hart has written to the line in between. -/
theorem sc_follows_reservation (hllc : isLlc) {ticks : List BankTick} {outs : List Unit}
    (hcond : Along Llc.step (fun s t => Lawful t ∧ s.Exclusive t) Llc.reset ticks)
    (hrun : run Llc.step Llc.reset ticks = some (s, outs)) {before after : List Event} {sc : Event}
    (hlog : s.log = before ++ sc :: after) (hsc : sc.StoresConditionally) :
    Reserved before sc.1.hartId (lineAddr sc.1.addr) := by
  have hinv : s.Inv := run_reaches (I := Inv)
    (fun _ _ _ _ h hc hstep => h.step hllc hc.1 hc.2 hstep) Inv.reset hcond hrun
  exact hinv.sound before sc after hlog hsc

def outline (e : Event) : MemOp × ℕ × ℕ × Bool :=
  (e.1.op, e.1.hartId, e.1.addr,
    decide (e.1.op = .amoSc) && e.2.any fun r => decide (r.Succeeds e.1))

theorem outline_sc {e : Event} {hart addr : ℕ} (h : outline e = (.amoSc, hart, addr, true)) :
    e.StoresConditionally ∧ e.1.hartId = hart ∧ e.1.addr = addr := by
  simp only [outline, Prod.mk.injEq, Bool.and_eq_true, decide_eq_true_eq, any_eq_true] at h
  obtain ⟨hop, hhart, haddr, -, r, hr, hs⟩ := h
  exact ⟨⟨hop, r, hr, hs⟩, hhart, haddr⟩

end Llc

end

namespace Llc

abbrev twoBanks : CacheConfig where
  C := 7
  L := 6
  S := 6
  W := 2
  A := 0
  B := 1
  addrWidth := 32
  writeBack := true
  writeReponse := false
  mshrSize := 4
  latency := 1
  replPolicy := .fifo
  isLlc := true

def atomicTick (bank : ℕ) (req : Option (MemOp × ℕ × ℕ)) (fill : Bool) : BankTick where
  bank
  ports := {
    coreReq := req.map fun r => ⟨r.1, r.2.2, some zeroBlock, 15, 0, r.2.1, 0,
      ⟨false, false⟩⟩
    memRsp := if fill then some ⟨0, 0, 0, some zeroBlock⟩ else none
    memSlots := 2
    rspSlots := 2 }

def hitTicks (bank : ℕ) (op : MemOp) (hart addr : ℕ) : List BankTick :=
  [atomicTick bank (some (op, hart, addr)) false, atomicTick bank none false]

def missTicks (bank : ℕ) (op : MemOp) (hart addr : ℕ) : List BankTick :=
  hitTicks bank op hart addr ++
    [atomicTick bank none true, atomicTick bank none false, atomicTick bank none false]

theorem sc_follows_reservation_alone :
    letI := twoBanks
    ∃ s outs before sc after,
      run Llc.step Llc.reset (missTicks 0 .amoLr 0 0 ++ hitTicks 0 .amoSc 0 0) = some (s, outs) ∧
      s.log = before ++ sc :: after ∧ sc.StoresConditionally ∧ sc.1.hartId = 0 ∧
      Reserved before 0 0 := by
  have hview : letI :=
    twoBanks; (run Llc.step Llc.reset (missTicks 0 .amoLr 0 0 ++ hitTicks 0 .amoSc 0 0)).map
      (fun r => r.1.log.map outline) = some [(.amoLr, 0, 0, false), (.amoSc, 0, 0, true)] := by
    decide +kernel
  obtain ⟨⟨s, outs⟩, hrun, hlog⟩ := map_eq_some_iff.mp hview
  obtain ⟨lr, rest, hs, -, hrest⟩ := List.map_eq_cons_iff.mp hlog
  obtain ⟨sc, rest, rfl, hsc, _⟩ := List.map_eq_cons_iff.mp hrest
  obtain ⟨hcond, hhart, haddr⟩ := @outline_sc twoBanks _ _ _ hsc
  have hres := @sc_follows_reservation twoBanks _ rfl _ _ (by decide +kernel) hrun [lr] _ _ hs hcond
  rw [hhart, haddr] at hres
  exact ⟨s, outs, [lr], sc, rest, hrun, hs, hcond, hhart, hres⟩

/-- An SC of hart 0 succeeds although hart 1 has swapped the line in between, and although the
last LR of hart 0 was to another line, in the other bank. -/
theorem sc_succeeds_without_reservation :
    letI := twoBanks
    let log ticks := (run Llc.step Llc.reset ticks).map fun r => r.1.log.map outline
    let swapped := missTicks 0 .amoLr 0 0 ++ hitTicks 0 .amoSwap 1 0 ++ missTicks 0 .amoSc 0 0
    let moved := missTicks 0 .amoLr 0 0 ++ missTicks 1 .amoLr 0 64 ++ hitTicks 0 .amoSc 0 0
    (∀ t ∈ swapped ++ moved, Lawful t) ∧
    log swapped = some [(.amoLr, 0, 0, false), (.amoSwap, 1, 0, false), (.amoSc, 0, 0, true)] ∧
    log moved = some [(.amoLr, 0, 0, false), (.amoLr, 0, 64, false), (.amoSc, 0, 0, true)] := by
  decide +kernel

end Llc

end VortexGpu.Cache

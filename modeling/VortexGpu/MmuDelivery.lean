import VortexGpu.MmuConservation

/-!
# Every request is delivered

The runs of the unit under a fixed root register. No request is lost or sent twice, and no walk
aborts. Progress is a measure: once the environment answers the walker and leaves room on every
channel, each tick lowers `work`, and after finitely many ticks everything that arrived has been
passed on.
-/

namespace VortexGpu.Simx
open Word ByteMem Vm Runs Queues Mmu List Function PageTables

def System.started (numPorts tlbSize : ℕ) (satp : Option Satp) : System :=
  { System.new numPorts tlbSize with mmu := { Mmu.new numPorts tlbSize with satp := satp } }

theorem unmarked_of_lt {tag : ℕ} (h : tag < ptwTagMarker) : marked tag = false :=
  Nat.testBit_lt_two_pow h

def Mmu.rank (s : Mmu) : ℕ :=
  match s.ptw.state with
  | .idle => 0
  | .fill => 1
  | .req => 3 * s.ptw.level + 4
  | .wait => 3 * s.ptw.level + if (s.inbox 0).isEmpty then 3 else 2

section Rank
variable {s : Mmu}

theorem rank_of_idle (h : s.ptw.state = .idle) : s.rank = 0 := by simp [rank, h]

theorem rank_of_fill (h : s.ptw.state = .fill) : s.rank = 1 := by simp [rank, h]

theorem rank_of_req (h : s.ptw.state = .req) : s.rank = 3 * s.ptw.level + 4 := by simp [rank, h]

theorem rank_of_wait (h : s.ptw.state = .wait) : s.rank ≤ 3 * s.ptw.level + 3 := by
  simp only [rank, h]
  split <;> omega

theorem idle_of_rank (hr : s.rank = 0) : s.ptw.state = .idle := by
  cases h : s.ptw.state with
  | idle => rfl
  | req => simp [rank_of_req h] at hr
  | fill => simp [rank_of_fill h] at hr
  | wait =>
    simp only [rank, h] at hr
    split at hr <;> omega

end Rank

section
variable [PageTables]

/-- The environment under a fixed root register: tags stay below the marker, every
accessed page is mapped, and the memory answers fetches that were made. -/
def Steady (s : System) : Action → Prop
  | .setSatp _ => False
  | .arrive p req => p < s.mmu.numPorts ∧ req.tag < ptwTagMarker ∧ Mapped s.mmu.satp req
  | .respond p rsp => p < s.mmu.numPorts ∧ rsp.tag < ptwTagMarker
  | .answer => s.answers < (fetchesOf (s.mmu.reqOut 0)).length
  | .tick _ _ => True

instance (s : System) : ∀ a : Action, Decidable (Steady s a)
  | .setSatp _ => .isFalse id
  | .arrive _ _ => by unfold Steady Mapped; infer_instance
  | .respond _ _ => inferInstanceAs (Decidable (_ ∧ _))
  | .answer => inferInstanceAs (Decidable (_ < _))
  | .tick _ _ => .isTrue trivial

theorem onTick_frame {s s' : Mmu} (h : s.onTick m = some s') :
    s'.satp = s.satp ∧ s'.numPorts = s.numPorts := by
  apply onTick_keeps (P := fun t => t.satp = s.satp ∧ t.numPorts = s.numPorts)
    (Q := fun t => t.satp = s.satp ∧ t.numPorts = s.numPorts) _ _ _ ⟨rfl, rfl⟩ h
  · intro t t' p ht hd
    rcases drainResponse_cases hd with ⟨_, rfl⟩ | ⟨rsp, rest, _, _, _, rfl⟩ |
      ⟨rsp, rest, t₁, _, _, _, ht₁, rfl⟩ | ⟨rsp, rest, _, _, rfl⟩
    · exact ht
    · exact ht
    · obtain ⟨ptw, rfl, _⟩ := onPtwResponse_cases ht₁
      exact ht
    · exact ht
  · intro t ht
    rcases runPtw_cases t with ⟨_, heq⟩ | ⟨_, _, heq⟩ | ⟨_, heq⟩ | ⟨_, _, heq⟩ |
      ⟨_, heq⟩ <;>
      (rw [heq]; exact ht)
  · intro t p ht
    rcases forwardRequest_cases t p with ⟨_, heq⟩ | ⟨_, _, heq⟩ | ⟨_, _, _, _, _, heq⟩ |
      ⟨_, _, _, _, _, _, _, heq⟩ | ⟨_, _, _, _, _, _, heq⟩ <;> (rw [heq]; exact ht)

structure Conserved (satp : Option Satp) (s : System) : Prop where
  walk : WalkInv s.answers s.mmu
  kept : Kept s.arrived s.returned s.mmu
  root : s.mmu.satp = satp

namespace Conserved
variable {satp : Option Satp} {s : System} {p : ℕ}

theorem started (satp : Option Satp) (numPorts tlbSize : ℕ) :
    Conserved satp (System.started numPorts tlbSize satp) where
  walk :=
    { coherent := fun _ _ h => absurd h (Tlb.not_has_new tlbSize)
      tags := fun _ _ h => by simp [System.started, Mmu.new] at h
      walking := fun h => absurd rfl h
      waiting := fun h => by simp [System.started, Mmu.new, Ptw.reset] at h
      quiet := fun _ => ⟨rfl, rfl⟩
      others := fun _ _ => rfl }
  kept :=
    { outside := fun _ _ => ⟨rfl, rfl⟩
      port := fun h => absurd rfl h
      mapped :=
        fun _ _ h => by simp [System.started, Mmu.new, Mmu.pending, Mmu.parked, Ptw.reset] at h
      miss := fun h => by simp [System.started, Mmu.new, Ptw.reset] at h
      reqs := fun _ => ⟨[], rfl, fun _ => rfl⟩
      rsps := fun _ => rfl
      upstream := fun _ _ h => by simp [System.started, Mmu.new] at h }
  root := rfl

section
variable (h : Conserved satp s)
include h

theorem arrive {req : MemReq} (hp : p < s.mmu.numPorts)
    (htag : marked req.tag = false) (hmap : Mapped s.mmu.satp req) : Conserved satp
      { s with mmu := s.mmu.pushReq p req,
               arrived := update s.arrived p (s.arrived p ++ [req]) } := by
  have hparked : (s.mmu.pushReq p req).parked = s.mmu.parked := rfl
  have hself : (s.mmu.pushReq p req).pending p = s.mmu.pending p ++ [req] := by
    rw [Mmu.pending, Mmu.pending, hparked]
    simp [pushReq]
  have hother : ∀ q, q ≠ p → (s.mmu.pushReq p req).pending q = s.mmu.pending q := by
    intro q hq
    rw [Mmu.pending, Mmu.pending, hparked]
    simp [pushReq, update_of_ne hq]
  refine ⟨h.walk.pushReq htag, { h.kept with outside := ?_, mapped := ?_, reqs := ?_ }, h.root⟩
  · intro q hge
    have hq : q ≠ p := by
      rintro rfl
      exact absurd hp (Nat.not_lt.mpr hge)
    obtain ⟨hreq, hrsp⟩ := h.kept.outside q hge
    exact ⟨by simpa [pushReq, update_of_ne hq] using hreq, hrsp⟩
  · intro q r hr
    by_cases hq : q = p
    · subst hq
      rw [hself, mem_append, mem_singleton] at hr
      rcases hr with hold | rfl
      · exact h.kept.mapped q r hold
      · exact hmap
    · rw [hother q hq] at hr
      exact h.kept.mapped q r hr
  · intro q
    have hacc := h.kept.reqs q
    by_cases hq : q = p
    · subst hq
      simp only [hself, update_self]
      exact hacc.arrive req
    · simp only [hother q hq, update_of_ne hq]
      exact hacc

theorem pushRsp {rsp : MemRsp} {answers : ℕ} {returned : ℕ → List MemRsp}
    (hp : p < s.mmu.numPorts) (hw : WalkInv answers (s.mmu.pushRsp p rsp))
    (hr : ∀ q, (s.mmu.rspOut q).sent ++ (s.mmu.pushRsp p rsp).waiting q = returned q) :
    Conserved satp
      { s with mmu := s.mmu.pushRsp p rsp, returned := returned, answers := answers } := by
  refine ⟨hw, { h.kept with outside := ?_, rsps := hr }, h.root⟩
  intro q hge
  have hq : q ≠ p := by
    rintro rfl
    exact absurd hp (Nat.not_lt.mpr hge)
  obtain ⟨hreq, hrsp⟩ := h.kept.outside q hge
  exact ⟨hreq, by simpa [Mmu.pushRsp, update_of_ne hq] using hrsp⟩

theorem respond {rsp : MemRsp} (hp : p < s.mmu.numPorts)
    (htag : marked rsp.tag = false) : Conserved satp
      { s with mmu := s.mmu.pushRsp p rsp,
               returned := update s.returned p (s.returned p ++ [rsp]) } := by
  apply h.pushRsp hp (h.walk.pushRsp_of_unmarked htag)
  intro q
  have hold := h.kept.rsps q
  by_cases hq : q = p
  · subst hq
    simp only [update_self, ← hold]
    simp [Mmu.waiting, Mmu.pushRsp, htag]
  · simpa [Mmu.waiting, Mmu.pushRsp, update_of_ne hq] using hold

theorem answer {addr : ℕ}
    (ha : (fetchesOf (s.mmu.reqOut 0))[s.answers]? = some addr) : Conserved satp
      { s with mmu := s.mmu.pushRsp 0 (pteResponse mem addr), answers := s.answers + 1 } := by
  have hwait : s.mmu.ptw.state = .wait := by
    by_contra hwait
    have hlt := (List.getElem?_eq_some_iff.mp ha).1
    have hquiet := (h.walk.quiet hwait).1
    omega
  have hport := h.kept.port (by simp [hwait])
  have hmark : marked ptwTagMarker = true := by decide
  apply h.pushRsp (by omega) (h.walk.answer ha)
  intro q
  rw [← h.kept.rsps q]
  by_cases hq : q = 0
  · subst hq
    simp [Mmu.waiting, Mmu.pushRsp, pteResponse, hmark]
  · simp [Mmu.waiting, Mmu.pushRsp, update_of_ne hq]

theorem withRoom (reqRoom rspRoom : ℕ → ℕ) :
    Conserved satp { s with mmu := s.mmu.withRoom reqRoom rspRoom } :=
  ⟨h.walk.withRoom reqRoom rspRoom, { h.kept with }, h.root⟩

theorem onTick : ∃ mmu, s.mmu.onTick m = some mmu ∧ Conserved satp { s with mmu := mmu } := by
  obtain ⟨mmu, hmmu⟩ := onTick_isSome
    (P := fun t => WalkInv s.answers t ∧ Kept s.arrived s.returned t)
    (fun t q ht => by
      obtain ⟨t', ht'⟩ := ht.2.drainResponse_isSome ht.1 q
      exact ⟨t', ht', ht.1.drainResponse ht', ht.2.drainResponse ht.1 ht'⟩)
    ⟨h.walk, h.kept⟩
  have hkeep := onTick_keeps
    (P := fun t => WalkInv s.answers t ∧ Kept s.arrived s.returned t)
    (Q := fun t => WalkInv s.answers t ∧ Kept s.arrived s.returned t ∧ Blocked t)
    (fun _ _ _ ht hd => ⟨ht.1.drainResponse hd, ht.2.drainResponse ht.1 hd⟩)
    (fun _ ht => ⟨ht.1.runPtw, ht.2.runPtw ht.1⟩)
    (fun _ q ht => ⟨ht.1.forwardRequest q, ht.2.1.forwardRequest ht.1 ht.2.2 q⟩)
    ⟨h.walk, h.kept⟩ hmmu
  exact ⟨mmu, hmmu, hkeep.1, hkeep.2.1, (onTick_frame hmmu).1.trans h.root⟩

theorem step {a : Action} (ha : Steady s a) :
    ∃ s' b, s.step a = some (s', b) ∧ Conserved satp s' := by
  cases a with
  | setSatp satp => exact absurd ha id
  | arrive p req =>
    obtain ⟨hp, htag, hmap⟩ := ha
    exact ⟨_, (), by simp only [System.step, if_pos hp], h.arrive hp (unmarked_of_lt htag) hmap⟩
  | respond p rsp =>
    obtain ⟨hp, htag⟩ := ha
    exact ⟨_, (), by simp only [System.step, if_pos hp], h.respond hp (unmarked_of_lt htag)⟩
  | answer =>
    have hget := getElem?_eq_getElem ha
    exact ⟨_, (), by simp only [System.step, hget], h.answer hget⟩
  | tick reqRoom rspRoom =>
    obtain ⟨mmu, hmmu, hcons⟩ := (h.withRoom reqRoom rspRoom).onTick
    exact ⟨_, (), by simp [System.step, hmmu], hcons⟩

end

end Conserved

def Mmu.work (s : Mmu) : ℕ :=
  total s.numPorts s.rspIn + s.rank + (3 * m.ptLevel + 2) * total s.numPorts s.reqIn

section Progress
variable {arrived : ℕ → List MemReq} {returned : ℕ → List MemRsp}
  {answers p : ℕ} {s s' : Mmu}

theorem drainResponse_work (hw : WalkInv answers s) (h : Kept arrived returned s)
    (hd : s.drainResponse m p = some s') :
    ((s.rspIn p = [] ∨ (s.rspOut p).full = true) ∧ s' = s) ∨ s'.work < s.work := by
  have hport : ∀ rsp rest, s.rspIn p = rsp :: rest →
      total s.numPorts (s.popRsp p).rspIn + 1 = total s.numPorts s.rspIn := by
    intro rsp rest hq
    have hp : p < s.numPorts := by
      by_contra hp
      simp [(h.outside p (by omega)).2] at hq
    exact total_pop hp hq
  rcases drainResponse_cases hd with hstay | ⟨rsp, rest, hq, hm, hne, _⟩ |
    ⟨rsp, rest, s₁, hq, hm, _, hs₁, rfl⟩ | ⟨rsp, rest, hq, hm, rfl⟩
  · exact .inl hstay
  · exact absurd (hw.marked_response hq hm).2.1 hne
  · right
    have hpop := hport rsp rest hq
    have hin := inbox_popRsp_of_marked hq hm
    obtain ⟨rfl, hwait, rfl, haddr, _⟩ := hw.marked_response hq hm
    have hrank : s.rank = 3 * s.ptw.level + 2 := by simp [rank, hwait, hin]
    have hrank' : (s₁.popRsp 0).rank < s.rank := by
      rw [hrank]
      rcases onPtwResponse_spec mem s haddr with ⟨hnone, _⟩ |
        ⟨level, ppn, hlevel, hsome, _⟩ |
        ⟨leaf, hsome, _⟩
      · simp [hnone] at hs₁
      · cases hsome.symm.trans hs₁
        rw [rank_of_req rfl]
        simp only [popRsp]
        omega
      · cases hsome.symm.trans hs₁
        rw [rank_of_fill rfl]
        omega
    obtain ⟨ptw, rfl, _⟩ := onPtwResponse_cases hs₁
    rw [Mmu.work, Mmu.work]
    simp only [popRsp] at hpop hrank' ⊢
    omega
  · right
    have hpop := hport rsp rest hq
    have hin : ((s.sendRsp p rsp).popRsp p).inbox = s.inbox := inbox_popRsp_of_unmarked hq hm
    have hrank : ((s.sendRsp p rsp).popRsp p).rank = s.rank := by
      rw [rank, rank, hin]
      rfl
    rw [Mmu.work, Mmu.work, hrank]
    simp only [popRsp, sendRsp] at hpop ⊢
    omega

theorem runPtw_work (s : Mmu) : (s.runPtw m).work ≤ s.work ∧
    (s.ptw.state = .req ∨ s.ptw.state = .fill → (∀ q, (s.reqOut q).full = false) →
      (s.runPtw m).work < s.work) := by
  rcases runPtw_cases s with ⟨hs, heq⟩ | ⟨hs, hfull, heq⟩ | ⟨hs, heq⟩ |
    ⟨hs, hfull, heq⟩ | ⟨hs, heq⟩
  · rw [heq]
    refine ⟨le_rfl, ?_⟩
    intro hbusy
    rcases hs with hs | hs <;> simp [hs] at hbusy
  · rw [heq]
    refine ⟨by simp [Mmu.work, rank, hs], ?_⟩
    intro _ hroom
    simp [hroom] at hfull
  · have hlt : (s.runPtw m).work < s.work := by
      have hrank : (s.runPtw m).rank ≤ 3 * s.ptw.level + 3 := by
        rw [heq]
        exact rank_of_wait rfl
      have hrank' := rank_of_req hs
      rw [Mmu.work, Mmu.work, hrank']
      rw [heq] at hrank ⊢
      simp only [sendReq] at hrank ⊢
      omega
    exact ⟨hlt.le, fun _ _ => hlt⟩
  · rw [heq]
    refine ⟨by simp [Mmu.work, rank, hs], ?_⟩
    intro _ hroom
    simp [hroom] at hfull
  · have hlt : (s.runPtw m).work < s.work := by
      rw [heq]
      simp only [Mmu.work, rank, hs, sendReq]
      omega
    exact ⟨hlt.le, fun _ _ => hlt⟩

theorem forwardRequest_work (h : Kept arrived returned s) (p : ℕ) :
    ((s.reqIn p = [] ∧ s.forwardRequest m p = s) ∨
      ((s.reqOut p).full = true ∨ s.ptw.state ≠ .idle) ∧
        (s.forwardRequest m p).work = s.work) ∨
      (s.forwardRequest m p).work < s.work := by
  have hless : ∀ {req rest} {t : Mmu}, s.reqIn p = req :: rest → t.numPorts = s.numPorts →
      t.rspIn = s.rspIn →
      t.reqIn = (s.popReq p).reqIn → t.rank < s.rank + (3 * m.ptLevel + 2) →
      t.work < s.work := by
    intro req rest t hq hports hrsp hreq hrank
    have hp : p < s.numPorts := by
      by_contra hp
      simp [(h.outside p (by omega)).1] at hq
    have hpop : total s.numPorts (s.popReq p).reqIn + 1 = total s.numPorts s.reqIn :=
      total_pop hp hq
    rw [Mmu.work, Mmu.work, hports, hrsp, hreq, ← hpop, mul_add]
    omega
  have hlevel : 0 < m.ptLevel := by cases m <;> decide
  rcases forwardRequest_cases s p with ⟨hq, heq⟩ | ⟨req, hq, heq⟩ |
    ⟨req, rest, hq, _, _, heq⟩ |
    ⟨req, rest, ppn, hq, _, _, _, heq⟩ | ⟨req, rest, hq, _, _, hs, heq⟩
  · left
    rcases hq with hq | hq
    · exact .inl ⟨hq, heq⟩
    · exact .inr ⟨.inl hq, by rw [heq]⟩
  · left
    exact .inr ⟨hq, by rw [heq]; rfl⟩
  · rw [heq]
    exact .inr (hless hq rfl rfl rfl (Nat.lt_add_of_pos_right (by omega) : s.rank < _))
  · rw [heq]
    exact .inr (hless hq rfl rfl rfl (Nat.lt_add_of_pos_right (by omega) : s.rank < _))
  · rw [heq]
    refine .inr (hless hq rfl rfl rfl ?_)
    have hrank : (((s.looked req).startPtw m req.addr req p).popReq p).rank =
        3 * (m.ptLevel - 1) + 4 := rank_of_req rfl
    omega

section
variable (l : List ℕ) (hw : WalkInv answers s) (h : Kept arrived returned s)
include l hw h

theorem drain_work (hroom : ∀ q, (s.rspOut q).full = false)
    (hd : l.foldlM (drainResponse m) s = some s') :
    (s' = s ∧ ∀ q ∈ l, s.rspIn q = []) ∨ s'.work < s.work := by
  induction l generalizing s with
  | nil =>
    simp only [foldlM_nil] at hd
    exact .inl ⟨(Option.some.inj hd).symm, by simp⟩
  | cons q l ih =>
    simp only [foldlM_cons] at hd
    obtain ⟨s₁, h₁, hrest⟩ := Option.bind_eq_some_iff.mp hd
    rcases drainResponse_work hw h h₁ with ⟨hstay, rfl⟩ | hlt
    · have hq : s₁.rspIn q = [] := hstay.resolve_right (by simp [hroom q])
      rcases ih hw h hroom hrest with ⟨heq, hempty⟩ | hlt
      · left
        refine ⟨heq, ?_⟩
        intro q' hq'
        rcases mem_cons.mp hq' with rfl | hq'
        · exact hq
        · exact hempty q' hq'
      · exact .inr hlt
    · right
      have hle : s'.work ≤ s₁.work := by
        have hkeep := drain_keeps
          (P := fun t => (WalkInv answers t ∧ Kept arrived returned t) ∧
            t.work ≤ s₁.work)
          (fun t t' q' ht hd' => by
            refine ⟨⟨ht.1.1.drainResponse hd', ht.1.2.drainResponse ht.1.1 hd'⟩, ?_⟩
            rcases drainResponse_work ht.1.1 ht.1.2 hd' with ⟨_, rfl⟩ | hlt'
            · exact ht.2
            · exact hlt'.le.trans ht.2)
          l ⟨⟨hw.drainResponse h₁, h.drainResponse hw h₁⟩, le_rfl⟩ hrest
        exact hkeep.2
      exact lt_of_le_of_lt hle hlt

theorem forward_work_le (hb : Blocked s) : (l.foldl (forwardRequest m) s).work ≤ s.work := by
  induction l generalizing s with
  | nil => exact le_rfl
  | cons q l ih =>
    rw [foldl_cons]
    have hkeep := h.forwardRequest hw hb q
    have hrest := ih (hw.forwardRequest q) hkeep.1 hkeep.2
    rcases forwardRequest_work h q with (⟨_, heq⟩ | ⟨_, heq⟩) | hlt
    · rw [heq] at hrest ⊢
      exact hrest
    · exact heq ▸ hrest
    · exact hrest.trans hlt.le

theorem forward_work_lt (hs : s.ptw.state = .idle)
    (hroom : ∀ q, (s.reqOut q).full = false) (hq : ∃ q ∈ l, s.reqIn q ≠ []) :
    (l.foldl (forwardRequest m) s).work < s.work := by
  have hb : Blocked s := fun hfill => by simp [hs] at hfill
  induction l with
  | nil => simp at hq
  | cons p l ih =>
    rw [foldl_cons]
    rcases forwardRequest_work h p with (⟨hempty, heq⟩ | ⟨hstuck, _⟩) | hlt
    · rw [heq]
      apply ih
      obtain ⟨q, hmem, hne⟩ := hq
      rcases mem_cons.mp hmem with rfl | hmem
      · exact absurd hempty hne
      · exact ⟨q, hmem, hne⟩
    · simp [hroom p, hs] at hstuck
    · have hkeep := h.forwardRequest hw hb p
      exact lt_of_le_of_lt (forward_work_le l (hw.forwardRequest p) hkeep.1 hkeep.2) hlt

end

theorem onTick_work (hw : WalkInv answers s) (h : Kept arrived returned s)
    (hreq : ∀ q, (s.reqOut q).full = false) (hrsp : ∀ q, (s.rspOut q).full = false)
    (hans : s.ptw.state = .wait → s.inbox 0 ≠ []) (ht : s.onTick m = some s') :
    s'.work < s.work ∨ s.work = 0 ∧ s'.work = 0 := by
  unfold Mmu.onTick at ht
  obtain ⟨s₁, h₁, hrest⟩ := Option.bind_eq_some_iff.mp ht
  cases hrest
  have hboth := drain_keeps
    (P := fun t => WalkInv answers t ∧ Kept arrived returned t)
    (fun _ _ _ ht hd => ⟨ht.1.drainResponse hd, ht.2.drainResponse ht.1 hd⟩) _ ⟨hw, h⟩ h₁
  have hle₁ := (runPtw_work s₁).1
  have hkeep := hboth.2.runPtw hboth.1
  have hle₂ := forward_work_le (range (s₁.runPtw m).numPorts) hboth.1.runPtw hkeep.1 hkeep.2
  rcases drain_work _ hw h hrsp h₁ with ⟨rfl, hempty⟩ | hlt
  · have hin : ∀ q, s₁.rspIn q = [] := by
      intro q
      by_cases hq : q < s₁.numPorts
      · exact hempty q (mem_range.mpr hq)
      · exact (h.outside q (by omega)).2
    cases hs : s₁.ptw.state with
    | wait => exact absurd (by simp [Mmu.inbox, hin]) (hans hs)
    | req =>
      left
      exact lt_of_le_of_lt hle₂ ((runPtw_work s₁).2 (.inl hs) hreq)
    | fill =>
      left
      exact lt_of_le_of_lt hle₂ ((runPtw_work s₁).2 (.inr hs) hreq)
    | idle =>
      have hrun : s₁.runPtw m = s₁ := by simp [runPtw, hs]
      rw [hrun] at hle₂ ⊢
      by_cases hq : ∃ q ∈ range s₁.numPorts, s₁.reqIn q ≠ []
      · exact .inl (forward_work_lt _ hw h hs hreq hq)
      right
      have hzero : s₁.work = 0 := by
        have htot : total s₁.numPorts s₁.reqIn = 0 := by
          apply total_eq_zero.mpr
          intro q hlt
          by_contra hne
          exact hq ⟨q, mem_range.mpr hlt, hne⟩
        have hrsp : total s₁.numPorts s₁.rspIn = 0 := total_eq_zero.mpr (fun q _ => hin q)
        simp [Mmu.work, htot, hrsp, rank_of_idle hs]
      exact ⟨hzero, by omega⟩
  · left
    omega

end Progress

def System.answered (s : System) : Option System :=
  if s.answers < (fetchesOf (s.mmu.reqOut 0)).length then (s.step .answer).map Prod.fst
  else some s

def System.serve (s : System) (room : (ℕ → ℕ) × (ℕ → ℕ)) : Option System := do
  let s ← s.answered
  (s.step (.tick room.1 room.2)).map Prod.fst

def HasRoom (room : (ℕ → ℕ) × (ℕ → ℕ)) : Prop := ∀ p, 0 < room.1 p ∧ 0 < room.2 p

namespace Conserved
variable {satp : Option Satp} {s : System}

theorem answered (h : Conserved satp s) : ∃ s₁, s.answered = some s₁ ∧
      Conserved satp s₁ ∧ (s₁.mmu.ptw.state = .wait → s₁.mmu.inbox 0 ≠ []) ∧
      s₁.mmu.work = s.mmu.work ∧ s₁.arrived = s.arrived ∧ s₁.returned = s.returned := by
  by_cases ha : s.answers < (fetchesOf (s.mmu.reqOut 0)).length
  · have hget := getElem?_eq_getElem ha
    have hwait : s.mmu.ptw.state = .wait := by
      by_contra hwait
      have hquiet := (h.walk.quiet hwait).1
      omega
    have hnil : s.mmu.inbox 0 = [] := by
      obtain ⟨_, F, hF, hcase⟩ := h.walk.waiting hwait
      rcases hcase with ⟨_, hnil⟩ | ⟨hlen, _⟩
      · exact hnil
      · rw [hF, hlen] at ha
        simp at ha
    have hmark : marked ptwTagMarker = true := by decide
    have hin : ∀ addr, (s.mmu.pushRsp 0 (pteResponse mem addr)).inbox 0 =
        [pteResponse mem addr] := by
      intro addr
      simp only [Mmu.inbox] at hnil
      simp [Mmu.inbox, Mmu.pushRsp, hnil, pteResponse, hmark]
    have hport : 0 < s.mmu.numPorts := by
      have hlt := h.kept.port (by simp [hwait])
      omega
    refine ⟨_, by simp [System.answered, if_pos ha, System.step, hget], h.answer hget,
      ?_, ?_, rfl, rfl⟩
    · intro _
      simp only [hin]
      exact cons_ne_nil _ _
    have hpush := total_push (Q := s.mmu.rspIn) hport (pteResponse mem
      ((fetchesOf (s.mmu.reqOut 0))[s.answers]))
    have hrank : s.mmu.rank = 3 * s.mmu.ptw.level + 3 := by simp [rank, hwait, hnil]
    have hrank' : ∀ addr, (s.mmu.pushRsp 0 (pteResponse mem addr)).rank =
        3 * s.mmu.ptw.level + 2 := by
      intro addr
      simp only [rank, hin]
      simp [Mmu.pushRsp, hwait]
    simp only [Mmu.work, hrank, hrank']
    simp only [Mmu.pushRsp, hpush]
    omega
  · refine ⟨s, by rw [System.answered, if_neg ha], h, ?_, rfl, rfl, rfl⟩
    intro hwait hnil
    obtain ⟨_, F, hF, hcase⟩ := h.walk.waiting hwait
    rcases hcase with ⟨hlen, _⟩ | ⟨_, hone⟩
    · rw [hF, hlen] at ha
      simp at ha
    · simp [hone] at hnil

theorem serve {room : (ℕ → ℕ) × (ℕ → ℕ)} (h : Conserved satp s)
    (hroom : HasRoom room) : ∃ s', s.serve room = some s' ∧ Conserved satp s' ∧
      s'.mmu.work ≤ s.mmu.work - 1 ∧ s'.arrived = s.arrived ∧ s'.returned = s.returned := by
  obtain ⟨s₁, hs₁, hcons, hans, hwork, harrived, hreturned⟩ := h.answered
  have hready := hcons.withRoom room.1 room.2
  obtain ⟨mmu, hmmu, hnext⟩ := hready.onTick
  refine ⟨{ s₁ with mmu := mmu }, ?_, hnext, ?_, harrived, hreturned⟩
  · rw [System.serve, hs₁]
    simp [System.step, hmmu]
  have hfull : ∀ q, ((s₁.mmu.withRoom room.1 room.2).reqOut q).full = false ∧
      ((s₁.mmu.withRoom room.1 room.2).rspOut q).full = false := by
    intro q
    have hq := hroom q
    simp only [Mmu.withRoom, OutPort.full, beq_eq_false_iff_ne]
    omega
  have hdrop := onTick_work hready.walk hready.kept (fun q => (hfull q).1) (fun q => (hfull q).2)
    hans hmmu
  have hsame : (s₁.mmu.withRoom room.1 room.2).work = s₁.mmu.work := rfl
  simp only [hsame] at hdrop
  simp only
  omega

theorem serveAll (rooms : List ((ℕ → ℕ) × (ℕ → ℕ))) (h : Conserved satp s)
    (hroom : ∀ room ∈ rooms, HasRoom room) :
    ∃ s', rooms.foldlM System.serve s = some s' ∧ Conserved satp s' ∧
      s'.mmu.work ≤ s.mmu.work - rooms.length ∧ s'.arrived = s.arrived ∧
      s'.returned = s.returned := by
  induction rooms generalizing s with
  | nil => exact ⟨s, rfl, h, le_rfl, rfl, rfl⟩
  | cons room rooms ih =>
    obtain ⟨s₁, hs₁, hcons, hwork, harrived, hreturned⟩ :=
      h.serve (hroom room mem_cons_self)
    obtain ⟨s', hs', hcons', hwork', harrived', hreturned'⟩ :=
      ih hcons (fun r hr => hroom r (mem_cons_of_mem _ hr))
    refine ⟨s', by simp [hs₁, hs'], hcons', ?_, harrived'.trans harrived,
      hreturned'.trans hreturned⟩
    simp only [length_cons]
    omega

theorem empty_of_work (h : Conserved satp s) (hz : s.mmu.work = 0) (p : ℕ) :
    s.mmu.pending p = [] ∧ s.mmu.waiting p = [] := by
  have hsum : total s.mmu.numPorts s.mmu.rspIn = 0 ∧ s.mmu.rank = 0 ∧
      total s.mmu.numPorts s.mmu.reqIn = 0 := by
    rw [Mmu.work] at hz
    have hprod : (3 * m.ptLevel + 2) * total s.mmu.numPorts s.mmu.reqIn = 0 := by omega
    have hreq := (Nat.mul_eq_zero.mp hprod).resolve_left (by omega)
    exact ⟨by omega, by omega, hreq⟩
  have hqueues : s.mmu.reqIn p = [] ∧ s.mmu.rspIn p = [] := by
    by_cases hp : p < s.mmu.numPorts
    · exact ⟨total_eq_zero.mp hsum.2.2 p hp, total_eq_zero.mp hsum.1 p hp⟩
    · exact h.kept.outside p (by omega)
  constructor
  · rw [Mmu.pending, parked_of_idle (idle_of_rank hsum.2.1), hqueues.1]
    rfl
  · simp [Mmu.waiting, hqueues.2]

end Conserved

/-- `out` is what a port has passed on: each request once, and in order for each page. -/
structure Delivered (satp : Option Satp)
    (emitted pending arrived out : List MemReq) : Prop where
  emitted_eq : emitted = out.map (translated satp)
  once : (out ++ pending).Perm arrived
  order : ∀ v, out.filter (fun r => page r = v) <+: arrived.filter (fun r => page r = v)

theorem Accounted.delivered {satp : Option Satp}
    {emitted pending arrived : List MemReq} (h : Accounted satp emitted pending arrived) :
    ∃ out, Delivered satp emitted pending arrived out := by
  obtain ⟨out, hout, hsame⟩ := h
  exact ⟨out, hout, hsame.perm, hsame.isPrefix⟩

/-- No walk aborts; requests and responses are conserved in every state reached; and
from there everything is passed on within a bounded number of rounds. -/
theorem requests_conserved (satp : Option Satp) (numPorts tlbSize : ℕ) (as : List Action)
    (ha : Along System.step Steady (System.started numPorts tlbSize satp) as) :
    ∃ t os, run System.step (System.started numPorts tlbSize satp) as = some (t, os) ∧
      (∀ p, ∃ out, Delivered satp (t.mmu.emitted p) (t.mmu.pending p) (t.arrived p) out) ∧
      (∀ p, (t.mmu.rspOut p).sent ++ t.mmu.waiting p = t.returned p) ∧
      (∀ p, ∀ r ∈ (t.mmu.rspOut p).sent, marked r.tag = false) ∧
      ∃ n, ∀ rooms : List ((ℕ → ℕ) × (ℕ → ℕ)), n ≤ rooms.length →
      (∀ room ∈ rooms, HasRoom room) → ∃ t', rooms.foldlM System.serve t = some t' ∧
          (∀ p, ∃ out, Delivered satp (t'.mmu.emitted p) [] (t.arrived p) out) ∧
          ∀ p, (t'.mmu.rspOut p).sent = t.returned p := by
  obtain ⟨t, os, hrun, hcons⟩ := run_keeps (I := Conserved satp) (fun _ _ hs hC => hs.step hC)
    (Conserved.started satp numPorts tlbSize) ha
  refine ⟨t, os, hrun, ?_, hcons.kept.rsps, hcons.kept.upstream, t.mmu.work, ?_⟩
  · intro p
    have hacc := hcons.kept.reqs p
    rw [hcons.root] at hacc
    exact hacc.delivered
  · intro rooms hn hroom
    obtain ⟨t', ht', hcons', hwork, harrived, hreturned⟩ := hcons.serveAll rooms hroom
    have hempty := hcons'.empty_of_work (by omega)
    refine ⟨t', ht', ?_, ?_⟩
    · intro p
      have hacc := hcons'.kept.reqs p
      rw [hcons'.root, (hempty p).1, harrived] at hacc
      exact hacc.delivered
    · intro p
      have hrsp := hcons'.kept.rsps p
      rw [(hempty p).2, append_nil, hreturned] at hrsp
      exact hrsp

end

def missThenHit : List Action :=
  [.arrive 0 (load 0), .arrive 0 (load 4), .arrive 1 (load 8), .tick (fun _ => 1) (fun _ => 1),
   .tick (fun _ => 1) (fun _ => 0), .answer, .tick (fun _ => 0) (fun _ => 1),
   .respond 0 ⟨1, 0, 0, none⟩, .tick (fun _ => 1) (fun _ => 1)]

theorem requests_conserved_missThenHit :
    letI := twoRoots
    ∃ t os, run System.step
        (System.started 2 1 (some (Satp.ofValue .sv32 (2 ^ 31 + 1)))) missThenHit = some (t, os) ∧
      ∀ p, ∃ out, Delivered (some (Satp.ofValue .sv32 (2 ^ 31 + 1)))
        (t.mmu.emitted p) (t.mmu.pending p) (t.arrived p) out := by
  obtain ⟨t, os, hrun, hout, _⟩ := @requests_conserved twoRoots
    (some (Satp.ofValue .sv32 (2 ^ 31 + 1))) 2 1 missThenHit (by decide)
  exact ⟨t, os, hrun, hout⟩

end VortexGpu.Simx

import VortexGpu.MemAllocPage

/-!
# The list primitives of a page

`Raw p U M S` says that the three lists of the page are well linked and hold the pointers `U`, `M`
and `S`; it does not yet relate the three. Each primitive of the page changes one of the lists and
leaves the shape of the page alone: the address range, the alignment, the pointers handed out and
the span of every block.
-/

namespace VortexGpu.MemAlloc
open IntrusiveList List Function

structure Shape where
  addr : ℕ
  size : ℕ
  blockAlign : ℕ
  fresh : Ptr
  spans : Ptr → Option Span

def Page.shape (p : Page) : Shape := ⟨p.addr, p.size, p.blockAlign, p.fresh, p.spans⟩

theorem Page.shape_ext {p p' : Page} (ha : p'.addr = p.addr) (hs : p'.size = p.size)
    (hb : p'.blockAlign = p.blockAlign) (hf : p'.fresh = p.fresh)
    (hv : ∀ q, p'.spans q = p.spans q) : p'.shape = p.shape := by
  simp only [Page.shape, ha, hs, hb, hf, Shape.mk.injEq, true_and]
  exact funext hv

structure Raw (p : Page) (U M S : List Ptr) : Prop where
  used : Linked usedLinks p.blocks p.usedList U
  freeM : Linked freeMLinks p.blocks p.freeMList M
  freeS : Linked freeSLinks p.blocks p.freeSList S
  -- `insertUsedList` relies on this and never writes the back link itself
  detached : ∀ q, q ∉ U → ∀ b, p.blocks q = some b → b.prevUsed = none

variable {p : Page} {U M S : List Ptr}

variable {q : Ptr} {b : Block} {s s' : Store Block} {head' : Option Ptr} {A B : List Ptr}

theorem Page.spans_eq_some (h : p.blocks q = some b) : p.spans q = some b.span := by
  simp [Page.spans, h]

theorem Page.blocks_of_spans {v : Span} (h : p.spans q = some v) :
    ∃ b, p.blocks q = some b ∧ b.span = v := Option.map_eq_some_iff.mp h

theorem detached_of_attr (h : ∀ q, (s' q).map Block.prevUsed = (s q).map Block.prevUsed)
    (hd : ∀ q, q ∉ U → ∀ b, s q = some b → b.prevUsed = none) :
    ∀ q, q ∉ U → ∀ b, s' q = some b → b.prevUsed = none := by
  intro q hq b hb
  have hm := h q
  rw [hb] at hm
  obtain ⟨c, hc, he⟩ := Option.map_eq_some_iff.mp hm.symm
  rw [← he]
  exact hd q hq c hc

theorem Raw.of_freeM {M' : List Ptr} (h : Raw p U M S)
    (ht : OnlyTouches freeMLinks p.blocks s') (hl : Linked freeMLinks s' head' M') :
    Raw { p with blocks := s', freeMList := head' } U M' S ∧
      Page.shape { p with blocks := s', freeMList := head' } = p.shape := by
  refine ⟨⟨?_, hl, ?_, ?_⟩, Page.shape_ext rfl rfl rfl rfl ht.attr⟩
  · exact h.used.of_onlyTouches ht
  · exact h.freeS.of_onlyTouches ht
  · exact detached_of_attr ht.attr h.detached

theorem Raw.of_freeS {S' : List Ptr} (h : Raw p U M S)
    (ht : OnlyTouches freeSLinks p.blocks s') (hl : Linked freeSLinks s' head' S') :
    Raw { p with blocks := s', freeSList := head' } U M S' ∧
      Page.shape { p with blocks := s', freeSList := head' } = p.shape := by
  refine ⟨⟨?_, ?_, hl, ?_⟩, Page.shape_ext rfl rfl rfl rfl ht.attr⟩
  · exact h.used.of_onlyTouches ht
  · exact h.freeM.of_onlyTouches ht
  · exact detached_of_attr ht.attr h.detached

theorem Raw.of_used {U' : List Ptr} (h : Raw p U M S)
    (ht : OnlyTouches usedLinks p.blocks s') (hl : Linked usedLinks s' head' U')
    (hd : ∀ q, q ∉ U' → ∀ b, s' q = some b → b.prevUsed = none) :
    Raw { p with blocks := s', usedList := head' } U' M S ∧
      Page.shape { p with blocks := s', usedList := head' } = p.shape := by
  refine ⟨⟨hl, ?_, ?_, hd⟩, Page.shape_ext rfl rfl rfl rfl ht.attr⟩
  · exact h.freeM.of_onlyTouches ht
  · exact h.freeS.of_onlyTouches ht

theorem insertSorted_of_spans {F : LinkField Block} {before : Span → Bool} {head : Option Ptr}
    (hl : Linked F p.blocks head (A ++ B)) (hnd : (A ++ q :: B).Nodup) (hq : p.blocks q = some b)
    (hsome : ∀ r ∈ A ++ B, ∃ d, p.spans r = some d)
    (hA : ∀ r ∈ A, ∀ d, p.spans r = some d → before d = true)
    (hB : ∀ r ∈ B, ∀ d, p.spans r = some d → before d = false)
    (hfresh : ∀ r, (p.spans r).isSome → r < p.fresh) :
    ∃ s' head', insertSorted F p.blocks (fun c => before c.span) (p.fresh + 1) head q =
      some (s', head') ∧ Linked F s' head' (A ++ q :: B) ∧ OnlyTouches F p.blocks s' := by
  have hA' : ∀ r ∈ A, ∃ d, p.blocks r = some d ∧ before d.span = true := by
    intro r hr
    obtain ⟨d, hd⟩ := hsome r (mem_append_left B hr)
    obtain ⟨bd, hbd, rfl⟩ := Page.blocks_of_spans hd
    exact ⟨bd, hbd, hA r hr _ hd⟩
  have hB' : ∀ r ∈ B.head?, ∃ d, p.blocks r = some d ∧ before d.span = false := by
    intro r hr
    have hrB := mem_of_mem_head? hr
    obtain ⟨d, hd⟩ := hsome r (mem_append_right A hrB)
    obtain ⟨bd, hbd, rfl⟩ := Page.blocks_of_spans hd
    exact ⟨bd, hbd, hB r hrB _ hd⟩
  have hlt : ∀ r ∈ A, r < p.fresh := by
    intro r hr
    obtain ⟨d, hd⟩ := hsome r (mem_append_left B hr)
    exact hfresh r (by simp [hd])
  obtain ⟨s', head', hi, hl', ht, _⟩ := insertSorted_spec hl hnd hq hA' hB'
    (length_lt_of_lt (nodup_append.mp hnd).1 hlt)
  exact ⟨s', head', hi, hl', ht⟩

theorem Raw.removeFreeMList (h : Raw p U (A ++ q :: B) S) (hnd : (A ++ q :: B).Nodup) :
    ∃ p', p.removeFreeMList q = some p' ∧ Raw p' U (A ++ B) S ∧ p'.shape = p.shape := by
  obtain ⟨s', head', hr, hl, ht, _, _⟩ := remove_spec h.freeM hnd
  exact ⟨_, by simp [Page.removeFreeMList, hr], h.of_freeM ht hl⟩

theorem Raw.insertFreeMList {b : Span} (h : Raw p U (A ++ B) S)
    (hnd : (A ++ q :: B).Nodup) (hq : p.spans q = some b)
    (hsome : ∀ r ∈ A ++ B, ∃ d, p.spans r = some d)
    (hA : ∀ r ∈ A, ∀ d, p.spans r = some d → d.addr < b.addr)
    (hB : ∀ r ∈ B, ∀ d, p.spans r = some d → b.addr ≤ d.addr)
    (hfresh : ∀ r, (p.spans r).isSome → r < p.fresh) :
    ∃ p', p.insertFreeMList q = some p' ∧ Raw p' U (A ++ q :: B) S ∧ p'.shape = p.shape := by
  obtain ⟨bq, hbq, rfl⟩ := Page.blocks_of_spans hq
  obtain ⟨s', head', hi, hl, ht⟩ := insertSorted_of_spans h.freeM hnd hbq hsome
    (fun r hr d hd => decide_eq_true (hA r hr d hd))
    (fun r hr d hd => decide_eq_false (not_lt.mpr (hB r hr d hd))) hfresh
  have hi' : insertSorted freeMLinks p.blocks (fun c => c.addr < bq.addr) (p.fresh + 1)
      p.freeMList q = some (s', head') := hi
  exact ⟨_, by simp [Page.insertFreeMList, hbq, hi'], h.of_freeM ht hl⟩

theorem Raw.unlinkAfter {l : Ptr} (h : Raw p U (A ++ l :: q :: B) S)
    (hnd : (A ++ l :: q :: B).Nodup) : ∃ s', unlinkAfter freeMLinks p.blocks l q = some s' ∧
      Raw { p with blocks := s' } U (A ++ l :: B) S ∧
      Page.shape { p with blocks := s' } = p.shape := by
  obtain ⟨s', hr, hl, ht, _, _⟩ := unlinkAfter_spec h.freeM hnd
  exact ⟨s', hr, h.of_freeM ht hl⟩

theorem Raw.removeFreeSList (h : Raw p U M (A ++ q :: B)) (hnd : (A ++ q :: B).Nodup) :
    ∃ p', p.removeFreeSList q = some p' ∧ Raw p' U M (A ++ B) ∧ p'.shape = p.shape := by
  obtain ⟨s', head', hr, hl, ht, _, _⟩ := remove_spec h.freeS hnd
  exact ⟨_, by simp [Page.removeFreeSList, hr], h.of_freeS ht hl⟩

theorem Raw.insertFreeSList {b : Span} (h : Raw p U M (A ++ B))
    (hnd : (A ++ q :: B).Nodup) (hq : p.spans q = some b)
    (hsome : ∀ r ∈ A ++ B, ∃ d, p.spans r = some d)
    (hA : ∀ r ∈ A, ∀ d, p.spans r = some d → b.size < d.size)
    (hB : ∀ r ∈ B, ∀ d, p.spans r = some d → d.size ≤ b.size)
    (hfresh : ∀ r, (p.spans r).isSome → r < p.fresh) :
    ∃ p', p.insertFreeSList q = some p' ∧ Raw p' U M (A ++ q :: B) ∧ p'.shape = p.shape := by
  obtain ⟨bq, hbq, rfl⟩ := Page.blocks_of_spans hq
  obtain ⟨s', head', hi, hl, ht⟩ := insertSorted_of_spans h.freeS hnd hbq hsome
    (fun r hr d hd => decide_eq_true (hA r hr d hd))
    (fun r hr d hd => decide_eq_false (not_lt.mpr (hB r hr d hd))) hfresh
  have hi' : insertSorted freeSLinks p.blocks (fun c => bq.size < c.size) (p.fresh + 1)
      p.freeSList q = some (s', head') := hi
  exact ⟨_, by simp [Page.insertFreeSList, hbq, hi'], h.of_freeS ht hl⟩

theorem Raw.removeUsedList (h : Raw p (A ++ q :: B) M S) (hnd : (A ++ q :: B).Nodup) :
    ∃ p', p.removeUsedList q = some p' ∧ Raw p' (A ++ B) M S ∧ p'.shape = p.shape := by
  obtain ⟨s', head', hr, hl, ht, hf, n, hn, hclear⟩ := remove_spec h.used hnd
  refine ⟨_, by simp [Page.removeUsedList, hr], h.of_used ht hl ?_⟩
  intro r hr b hb
  by_cases hrq : r = q
  · subst hrq
    cases hn.symm.trans hb
    exact hclear
  · have hout : r ∉ A ++ q :: B := by
      simp only [mem_append, mem_cons, not_or] at hr ⊢
      exact ⟨hr.1, hrq, hr.2⟩
    exact h.detached r hout b ((hf r hout).symm.trans hb)

theorem Raw.insertUsedList (h : Raw p U M S) (hnd : (q :: U).Nodup) (hq : p.blocks q = some b) :
    ∃ p', p.insertUsedList q = some p' ∧ Raw p' (q :: U) M S ∧ p'.shape = p.shape := by
  have hout : q ∉ U := (nodup_cons.mp hnd).1
  obtain ⟨s', hr, hl, ht, hf⟩ := pushFront_spec h.used hnd hq (h.detached q hout b hq)
  refine ⟨_, by simp [Page.insertUsedList, hr], h.of_used ht hl ?_⟩
  intro r hr c hc
  exact h.detached r (fun hm => hr (mem_cons_of_mem q hm)) c ((hf r hr).symm.trans hc)

theorem map_update_some {β : Type} (g : Block → β) {c : Block}
    (hq : s q = some b) (hg : g c = g b) (r : Ptr) :
    (update s q (some c) r).map g = (s r).map g := by
  by_cases hr : r = q
  · subst hr
    simp [hq, hg]
  · rw [update_of_ne hr]

theorem spans_update (s : Store Block) (q : Ptr) (v : Option Block) :
    (fun r => (update s q v r).map Block.span) =
      update (fun r => (s r).map Block.span) q (v.map Block.span) := by
  funext r
  by_cases hr : r = q
  · subst hr
    simp
  · simp [update_of_ne hr]

theorem Raw.setSize (h : Raw p U M S) (hq : p.blocks q = some b) (n : ℕ) :
    ∃ p', p.setSize q n = some p' ∧ Raw p' U M S ∧
      p'.shape = { p.shape with spans := update p.spans q (some ⟨b.addr, n⟩) } := by
  have hkeep : ∀ {β : Type} (g : Block → β), g { b with size := n } = g b → ∀ r,
      (update p.blocks q (some { b with size := n }) r).map g = (p.blocks r).map g :=
    fun g hg => map_update_some g hq hg
  refine ⟨{ p with blocks := update p.blocks q (some { b with size := n }) },
    by simp [Page.setSize, modify_eq hq],
    ⟨⟨h.used.1, ?_⟩, ⟨h.freeM.1, ?_⟩, ⟨h.freeS.1, ?_⟩, ?_⟩, ?_⟩
  · exact segment_attr (fun r _ => hkeep _ rfl r) (fun r _ => hkeep _ rfl r) h.used.2
  · exact segment_attr (fun r _ => hkeep _ rfl r) (fun r _ => hkeep _ rfl r) h.freeM.2
  · exact segment_attr (fun r _ => hkeep _ rfl r) (fun r _ => hkeep _ rfl r) h.freeS.2
  · exact detached_of_attr (hkeep _ rfl) h.detached
  · simp only [Page.shape, Shape.mk.injEq, true_and]
    exact spans_update ..

theorem Raw.update {v : Option Block} {fresh : Ptr} (h : Raw p U M S) (hU : q ∉ U)
    (hM : q ∉ M) (hS : q ∉ S) (hv : ∀ b, v = some b → b.prevUsed = none) :
    Raw { p with blocks := update p.blocks q v, fresh := fresh } U M S := by
  refine ⟨h.used.update hU, h.freeM.update hM, h.freeS.update hS, fun r hr b hb => ?_⟩
  simp only at hb
  by_cases he : r = q
  · subst he
    rw [update_self] at hb
    exact hv b hb
  · rw [update_of_ne he] at hb
    exact h.detached r hr b hb

theorem Raw.newBlock (h : Raw p U M S) (addr size : ℕ) (hU : p.fresh ∉ U) (hM : p.fresh ∉ M)
    (hS : p.fresh ∉ S) : Raw (p.newBlock addr size) U M S ∧ (p.newBlock addr size).shape =
      { p.shape with fresh := p.fresh + 1,
                     spans := Function.update p.spans p.fresh (some ⟨addr, size⟩) } := by
  constructor
  · refine h.update hU hM hS (fun b hb => ?_)
    cases hb
    rfl
  · simp only [Page.shape, Page.newBlock, Shape.mk.injEq, true_and]
    exact spans_update ..

theorem Raw.deleteBlock (h : Raw p U M S) (hU : q ∉ U) (hM : q ∉ M) (hS : q ∉ S) :
    Raw (p.deleteBlock q) U M S ∧ (p.deleteBlock q).shape =
      { p.shape with spans := Function.update p.spans q none } := by
  constructor
  · exact h.update hU hM hS (by simp)
  · simp only [Page.shape, Page.deleteBlock, Shape.mk.injEq, true_and]
    exact spans_update ..

end VortexGpu.MemAlloc

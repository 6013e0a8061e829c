import VortexGpu.MemAllocLayout

/-!
# Specifications of the page operations

Each operation of a page is defined on every page that `Holds`, keeps that
invariant, and changes the used blocks exactly as its name says. The search
functions return a block of the right list or report that there is none.
-/

namespace VortexGpu.MemAlloc
open IntrusiveList Word Page Span List Option Function

variable {p : Page} {U A B M S C D : List Ptr} {q : Ptr}

theorem Page.shape_spans (p : Page) : p.shape.spans = p.spans := rfl

def Page.SameFrame (p' p : Page) : Prop :=
  p'.addr = p.addr ∧ p'.size = p.size ∧ p'.blockAlign = p.blockAlign

theorem Page.SameFrame.of_shape {p' : Page} (h : p'.shape = p.shape) : p'.SameFrame p :=
  ⟨congrArg Shape.addr h, congrArg Shape.size h, congrArg Shape.blockAlign h⟩

theorem Page.SameFrame.trans {p₁ p₂ p₃ : Page} (h : p₁.SameFrame p₂)
    (h' : p₂.SameFrame p₃) :
    p₁.SameFrame p₃ := ⟨h.1.trans h'.1, h.2.1.trans h'.2.1, h.2.2.trans h'.2.2⟩

variable {r c : Ptr} {b : Span} {sh : Shape} {n : ℕ}

theorem Holds.block (h : Holds p U M S) (hr : r ∈ U ∨ r ∈ M) :
    ∃ b, p.blocks r = some b ∧ p.spans r = some b.span := by
  obtain ⟨v, hv⟩ := h.layout.mem_isSome hr
  obtain ⟨b, hb, _⟩ := blocks_of_spans hv
  exact ⟨b, hb, spans_eq_some hb⟩

theorem absorb_spec {x y z : Ptr} {d : Span} (h : Raw p U (A ++ x :: y :: B) (C ++ z :: D))
    (hndM : (A ++ x :: y :: B).Nodup) (hndS : (C ++ z :: D).Nodup) (hx : p.spans x = some b)
    (hy : p.spans y = some d) (hsum : b.size + d.size < 2 ^ 64) (hyU : y ∉ U)
    (hyS : y ∉ C ++ D) : ∃ p', p.absorb x y z = some p' ∧ Raw p' U (A ++ x :: B) (C ++ D) ∧
      p'.shape = p.shape.fuse x y b d ∧ p'.spans x = some ⟨b.addr, b.size + d.size⟩ ∧
      (∀ r, r ≠ x → r ≠ y → p'.spans r = p.spans r) ∧ p'.SameFrame p := by
  obtain ⟨bx, hbx, rfl⟩ := blocks_of_spans hx
  obtain ⟨bd, hbd, rfl⟩ := blocks_of_spans hy
  have hadd : add64 bx.size bd.size = bx.size + bd.size := add64_of_lt hsum
  obtain ⟨p₁, h₁, hr₁, hs₁⟩ := h.setSize hbx (bx.size + bd.size)
  obtain ⟨s₂, h₂, hr₂, hs₂⟩ := hr₁.unlinkAfter hndM
  obtain ⟨p₃, h₃, hr₃, hs₃⟩ := hr₂.removeFreeSList hndS
  have hyM : y ∉ A ++ x :: B := by
    have hl : A ++ x :: y :: B = (A ++ [x]) ++ y :: B := by simp
    rw [hl, nodup_middle, nodup_cons] at hndM
    simpa using hndM.1
  have hxy : x ≠ y := fun he => hyM (by simp [he])
  obtain ⟨hr₄, hs₄⟩ := hr₃.deleteBlock hyU hyM hyS
  have hshape : (p₃.deleteBlock y).shape = p.shape.fuse x y bx.span bd.span := by
    have hs : p₃.shape = _ := hs₃.trans (hs₂.trans hs₁)
    have hspans : p₃.spans = _ := congrArg Shape.spans hs
    rw [hs₄, hspans, hs]
    rfl
  have hspans := congrArg Shape.spans hshape
  refine ⟨p₃.deleteBlock y, ?_, hr₄, hshape, ?_, ?_, ?_⟩
  · simp [absorb, hbx, hbd, hadd, h₁, h₂, h₃]
  · rw [← shape_spans, hspans, Shape.fuse_span _ _ _ hxy]
  · intro r hrx hry
    rw [← shape_spans, hspans, Shape.fuse_other _ _ _ hrx hry, shape_spans]
  · exact ⟨congrArg Shape.addr hshape, congrArg Shape.size hshape,
      congrArg Shape.blockAlign hshape⟩

theorem Open.ne_of_span (h : Open sh U A B S c) : c ∉ U ∧ c ∉ A ++ B ∧ c ∉ S := by
  have hnd := h.nodup
  rw [← append_assoc, nodup_middle, nodup_cons] at hnd
  have hc := hnd.1
  simp only [mem_append, not_or] at hc
  refine ⟨hc.1.1, by simpa using ⟨hc.1.2, hc.2⟩, fun hm => ?_⟩
  have hm' := h.perm.mem_iff.mp hm
  simp only [mem_append] at hm'
  tauto

theorem Open.nodupS (h : Open sh U A B S c) : S.Nodup := by
  exact h.perm.nodup_iff.mpr ((nodup_append.mp h.nodup).2.1.sublist (sublist_drop A c B))

theorem Open.block (h : Open p.shape U A B S c) (hr : r ∈ A ++ c :: B) :
    ∃ b, p.blocks r = some b ∧ p.shape.spans r = some b.span := by
  obtain ⟨d, hd⟩ := exists_span ((h.live r).mpr (.inr hr))
  obtain ⟨b, hb, rfl⟩ := blocks_of_spans hd
  exact ⟨b, hb, hd⟩

theorem mergeLeft_spec (hr : Raw p U (A ++ q :: B) S) (ho : Open p.shape U A B S q) :
    ∃ p' c A' S', p.mergeLeft q = some (p', c) ∧ Raw p' U (A' ++ c :: B) S' ∧
      Open p'.shape U A' B S' c ∧
      (∀ r ∈ A', ∀ b, p'.spans r = some b → ∀ d, p'.spans c = some d →
        b.stop < d.addr) ∧
      (∀ r ∈ U, p'.spans r = p.spans r) ∧ p'.SameFrame p := by
  obtain ⟨bq, hbq, hd⟩ := ho.block (r := q) (by simp)
  obtain ⟨n, hn, hprev, _⟩ := (segment_split.mp hr.freeM.2).2.1
  cases hbq.symm.trans hn
  rw [or_none] at hprev
  have hprev' : bq.prevFreeM = A.getLast? := hprev
  rcases eq_nil_or_concat A with rfl | ⟨A, l, rfl⟩
  · exact ⟨p, q, [], S, by simp [mergeLeft, hbq, hprev'], hr, ho, by simp, fun _ _ => rfl,
      .of_shape rfl⟩
  rw [concat_eq_append] at hr ho hprev'
  rw [getLast?_concat] at hprev'
  obtain ⟨bl, hbl, hb⟩ := ho.block (r := l) (by simp)
  have hin := ho.tiles.inside l bl.span hb
  have hinq := ho.tiles.inside q bq.span hd
  have hbound := ho.bound
  have hleft := ho.left l (by simp) bl.span hb bq.span hd
  simp only [stop, Block.span] at hin hinq hleft
  have hadd : add64 bl.addr bl.size = bl.addr + bl.size := add64_of_lt (by omega)
  by_cases htouch : bq.addr = bl.addr + bl.size
  · -- `l` absorbs `q`
    obtain ⟨C, D, rfl⟩ := append_of_mem (ho.perm.mem_iff.mpr (by simp : l ∈ (A ++ [l]) ++ B))
    have hassoc : (A ++ [l]) ++ q :: B = A ++ l :: q :: B := by simp
    have hnd : (A ++ l :: q :: B).Nodup := hassoc ▸ (nodup_append.mp ho.nodup).2.1
    obtain ⟨hqU, _, hqS⟩ := ho.ne_of_span
    have hqS' : q ∉ C ++ D := by
      simp only [mem_append, mem_cons, not_or] at hqS ⊢
      exact ⟨hqS.1, hqS.2.2⟩
    obtain ⟨p', hp', hr', hs', hl', hk', hf'⟩ := absorb_spec (hassoc ▸ hr) hnd ho.nodupS hb hd
      (by simp only [Block.span]; omega) hqU hqS'
    have hfuse := ho.fuse_left hb hd htouch.symm
    refine ⟨p', l, A, C ++ D, ?_, hr', hs' ▸ hfuse, ?_, ?_, hf'⟩
    · simp [mergeLeft, hbq, hprev', hbl, hadd, htouch, hp']
    · intro r hr₀ e he f hf
      have hlA : l ∉ A := fun hm => (nodup_append.mp hnd).2.2 l hm l mem_cons_self rfl
      have hrq : r ≠ q := by
        intro he
        exact ho.ne_of_span.2.1 (by simp [← he, hr₀])
      rw [hk' r (ne_of_mem_of_not_mem hr₀ hlA) hrq] at he
      cases hl'.symm.trans hf
      exact (pairwise_append.mp (pairwise_append.mp ho.sortedM).1).2.2 r hr₀ l
        mem_cons_self e he bl.span hb
    · intro r hrU
      have hdis := (nodup_append.mp ho.nodup).2.2
      exact hk' r (hdis r hrU l (by simp)) (hdis r hrU q (by simp))
  · refine ⟨p, q, A ++ [l], S, ?_, hr, ho, ?_, fun _ _ => rfl, .of_shape rfl⟩
    · simp [mergeLeft, hbq, hprev', hbl, hadd, htouch]
    · intro r hr₀ e he f hf
      cases hd.symm.trans hf
      rcases mem_append.mp hr₀ with hrA | hrl
      · have hlt := (pairwise_append.mp (pairwise_append.mp ho.sortedM).1).2.2 r hrA l
          mem_cons_self e he bl.span hb
        simp only [stop, Block.span] at hlt ⊢
        omega
      · rw [mem_singleton] at hrl
        subst hrl
        cases hb.symm.trans he
        simp only [stop, Block.span]
        omega

theorem mergeRight_spec (hr : Raw p U (A ++ c :: B) S) (ho : Open p.shape U A B S c) :
    ∃ p' B' S', p.mergeRight c = some p' ∧ Raw p' U (A ++ c :: B') S' ∧
      Open p'.shape U A B' S' c ∧
      (∀ r ∈ B', ∀ b, p'.spans r = some b → ∀ d, p'.spans c = some d →
        d.stop < b.addr) ∧
      (∀ r ∈ U ++ A, p'.spans r = p.spans r) ∧
      (p'.spans c).map Span.addr = (p.spans c).map Span.addr ∧ p'.SameFrame p := by
  obtain ⟨bc, hbc, hb⟩ := ho.block (r := c) (by simp)
  obtain ⟨m, hm, _, hnext⟩ := (segment_split.mp hr.freeM.2).2.1
  cases hbc.symm.trans hm
  rw [or_none] at hnext
  have hnext' : bc.nextFreeM = B.head? := hnext
  cases B with
  | nil =>
    exact ⟨p, [], S, by simp [mergeRight, hbc, hnext'], hr, ho, by simp, fun _ _ => rfl, rfl,
      .of_shape rfl⟩
  | cons n B =>
    rw [head?_cons] at hnext'
    obtain ⟨bn, hbn, hd⟩ := ho.block (r := n) (by simp)
    have hin := ho.tiles.inside n bn.span hd
    have hbound := ho.bound
    have hright := ho.right n (by simp) bn.span hd bc.span hb
    simp only [stop, Block.span] at hin hright
    have hadd : add64 bc.addr bc.size = bc.addr + bc.size := add64_of_lt (by omega)
    have hndM : (A ++ c :: n :: B).Nodup := (nodup_append.mp ho.nodup).2.1
    by_cases htouch : bn.addr = bc.addr + bc.size
    · -- `c` absorbs `n`
      obtain ⟨C, D, rfl⟩ := append_of_mem (ho.perm.mem_iff.mpr (by simp : n ∈ A ++ n :: B))
      have hnU : n ∉ U := fun hm => (nodup_append.mp ho.nodup).2.2 n hm n (by simp) rfl
      have hnS : n ∉ C ++ D := (nodup_cons.mp (nodup_middle.mp ho.nodupS)).1
      obtain ⟨p', hp', hr', hs', hc', hk', hf'⟩ := absorb_spec hr hndM ho.nodupS hb hd
        (by simp only [Block.span]; omega) hnU hnS
      have hfuse := ho.fuse_right hb hd htouch.symm
      refine ⟨p', B, C ++ D, ?_, hr', hs' ▸ hfuse, ?_, ?_, ?_, hf'⟩
      · simp [mergeRight, hbc, hnext', hbn, hadd, htouch, hp']
      · intro r hr₀ e he f hf
        have hrc : r ≠ c :=
          ne_of_mem_of_not_mem hr₀ (fun hm => ho.ne_of_span.2.1 (by simp [hm]))
        have hrn : r ≠ n := by
          have hnB := (nodup_cons.mp
            (nodup_cons.mp (nodup_append.mp hndM).2.1).2).1
          exact ne_of_mem_of_not_mem hr₀ hnB
        rw [hk' r hrc hrn] at he
        cases hc'.symm.trans hf
        have hlt := (pairwise_cons.mp (pairwise_append.mp ho.sortedM).2.1).1 r hr₀
          bn.span hd e he
        simp only [stop, Block.span] at hlt ⊢
        omega
      · intro r hr₀
        refine hk' r ?_ ?_
        · intro he
          subst he
          rcases mem_append.mp hr₀ with hu | ha
          · exact ho.ne_of_span.1 hu
          · exact ho.ne_of_span.2.1 (by simp [ha])
        · intro he
          subst he
          rcases mem_append.mp hr₀ with hu | ha
          · exact hnU hu
          · exact (nodup_append.mp hndM).2.2 r ha r (by simp) rfl
      · rw [hc', spans_eq_some hbc]
        rfl
    · refine ⟨p, n :: B, S, ?_, hr, ho, ?_, fun _ _ => rfl, rfl, .of_shape rfl⟩
      · simp [mergeRight, hbc, hnext', hbn, hadd, htouch]
      · intro r hr₀ e he f hf
        cases hb.symm.trans hf
        rcases mem_cons.mp hr₀ with hrn | hrB
        · subst hrn
          cases hd.symm.trans he
          simp only [stop, Block.span]
          omega
        · have hlt := (pairwise_cons.mp (pairwise_append.mp ho.sortedM).2.1).1 r hrB
            bn.span hd e he
          simp only [stop, Block.span] at hlt ⊢
          omega

theorem Holds.release {X Y : List Ptr} (h : Holds p (X ++ q :: Y) M S) :
    ∃ p' M' S', p.release q = some p' ∧ Holds p' (X ++ Y) M' S' ∧
      (∀ r ∈ X ++ Y, p'.spans r = p.spans r) ∧ p'.SameFrame p := by
  have hndU : (X ++ q :: Y).Nodup := (nodup_append.mp h.layout.nodup).1
  obtain ⟨p₁, h₁, hr₁, hs₁⟩ := h.raw.removeUsedList hndU
  have hL₁ : Layout p₁.shape (X ++ q :: Y) M S := hs₁ ▸ h.layout
  have hdis := (nodup_append.mp hL₁.nodup).2.2
  obtain ⟨b, hb⟩ := hL₁.mem_isSome (.inl (by simp : q ∈ X ++ q :: Y))
  -- the place of `q` on the M-list
  have hpos : ∀ r ∈ M, ∃ e, p₁.spans r = some e ∧ 0 < e.size := by
    intro r hr
    obtain ⟨e, he⟩ := hL₁.mem_isSome (.inr hr)
    exact ⟨e, he, (hL₁.tiles.inside r e he).2.1⟩
  obtain ⟨A, B, rfl, hA, hB⟩ := split_sortedM (x := b) hL₁.sortedM (by
    intro r hr
    obtain ⟨e, he, hsize⟩ := hpos r hr
    exact ⟨e, he, hsize, hL₁.tiles.apart r q e b he hb
      (fun hrq => hdis q (by simp) q (hrq ▸ hr) rfl)⟩)
  have hO := hL₁.open hb hA hB
  have hinq := hL₁.tiles.inside q b hb
  obtain ⟨p₂, h₂, hr₂, hs₂⟩ := hr₁.insertFreeMList (q := q)
    (nodup_append.mp hO.nodup).2.1 hb (fun r hr => (hpos r hr).imp fun _ h => h.1)
    (fun r hr d hd => by
      obtain ⟨e, he, hsize⟩ := hpos r (mem_append_left B hr)
      obtain rfl : e = d := some.inj (he.symm.trans hd)
      have hle := hA r hr e he
      simp only [stop] at hle
      omega)
    (fun r hr d hd => by
      have hle := hB r hr d hd
      simp only [stop] at hle
      omega) hL₁.below
  obtain ⟨p₃, c, A', S', h₃, hr₃, hO₃, hl₃, hU₃, hf₃⟩ :=
    mergeLeft_spec hr₂ (hs₂ ▸ hO)
  obtain ⟨p₄, B', S'', h₄, hr₄, hO₄, hl₄, hk₄, hc₄, hf₄⟩ :=
    mergeRight_spec hr₃ hO₃
  obtain ⟨d, hd⟩ := exists_span ((hO₄.live c).mpr (.inr (by simp)))
  have hd' : p₄.spans c = some d := hd
  -- the place of the remaining block on the S-list
  have hsome : ∀ r ∈ S'', ∃ e, p₄.shape.spans r = some e := by
    intro r hr
    refine exists_span ((hO₄.live r).mpr (.inr ?_))
    have hm := hO₄.perm.mem_iff.mp hr
    simp only [mem_append, mem_cons] at hm ⊢
    tauto
  obtain ⟨C, D, rfl, hC, hD⟩ := split_sortedS d.size hO₄.sortedS hsome
  have hndS : (C ++ c :: D).Nodup :=
    nodup_middle.mpr (nodup_cons.mpr ⟨hO₄.ne_of_span.2.2, hO₄.nodupS⟩)
  obtain ⟨p₅, h₅, hr₅, hs₅⟩ :=
    hr₄.insertFreeSList (q := c) hndS hd' hsome hC hD hO₄.below
  have hleft : ∀ r ∈ A', ∀ e, p₄.shape.spans r = some e → e.stop < d.addr := by
    intro r hr e he
    have he₃ : p₃.spans r = some e := (hk₄ r (mem_append_right _ hr)).symm.trans he
    rw [hd'] at hc₄
    obtain ⟨d₃, hd₃, hda⟩ := map_eq_some_iff.mp hc₄.symm
    rw [← hda]
    exact hl₃ r hr e he₃ d₃ hd₃
  have hclose := hO₄.close hd hleft (fun r hr e he => hl₄ r hr e he d hd') hC hD
  have hspans : p₅.spans = p₄.spans := congrArg Shape.spans hs₅
  refine ⟨p₅, A' ++ c :: B', C ++ c :: D, ?_, ⟨hr₅, hs₅ ▸ hclose⟩, ?_, ?_⟩
  · simp [release, h₁, h₂, h₃, h₄, h₅]
  · intro r hr
    have h₂₁ : p₂.spans = p₁.spans := congrArg Shape.spans hs₂
    have h₁₀ : p₁.spans = p.spans := congrArg Shape.spans hs₁
    rw [hspans, hk₄ r (mem_append_left _ hr), hU₃ r hr, h₂₁, h₁₀]
  · exact (Page.SameFrame.of_shape hs₅).trans
      (hf₄.trans (hf₃.trans (.of_shape (hs₂.trans hs₁))))

theorem Layout.around (h : Layout sh U (A ++ q :: B) S) (hq : sh.spans q = some b) :
    (∀ r ∈ A, ∀ d, sh.spans r = some d → d.addr < b.addr) ∧
      ∀ r ∈ B, ∀ d, sh.spans r = some d → b.addr ≤ d.addr := by
  have hsplit := pairwise_append.mp h.sortedM
  have hpos := h.tiles.inside q b hq
  constructor
  · intro r hr d hd
    have hlt := hsplit.2.2 r hr q mem_cons_self d hd b hq
    simp only [stop] at hlt
    omega
  · intro r hr d hd
    have hlt := (pairwise_cons.mp hsplit.2.1).1 r hr b hq d hd
    simp only [stop] at hlt
    omega

theorem Layout.nodupS (h : Layout sh U M S) : S.Nodup :=
  h.perm.nodup_iff.mpr (nodup_append.mp h.nodup).2.1

theorem split_spec {E G : List Ptr} (hr : Raw p U (A ++ B) (E ++ G))
    (hL : Layout (p.shape.cut q b n) (q :: U) (A ++ p.fresh :: B) (E ++ p.fresh :: G))
    (hb : p.spans q = some b) (hnb : n ≤ b.size) (hbound : b.stop < 2 ^ 64)
    (hfU : p.fresh ∉ U) (hfM : p.fresh ∉ A ++ B) (hfS : p.fresh ∉ E ++ G)
    (hE : ∀ r ∈ E, ∀ d, (p.shape.cut q b n).spans r = some d → b.size - n < d.size)
    (hG : ∀ r ∈ G, ∀ d, (p.shape.cut q b n).spans r = some d → d.size ≤ b.size - n) :
    ∃ p₁ p₂ p₃, p.setSize q n = some p₁ ∧ p₁.fresh = p.fresh ∧
      (p₁.newBlock (add64 b.addr n) (b.size - n)).insertFreeMList p.fresh = some p₂ ∧
      p₂.insertFreeSList p.fresh = some p₃ ∧
      Raw p₃ U (A ++ p.fresh :: B) (E ++ p.fresh :: G) ∧ p₃.shape = p.shape.cut q b n := by
  obtain ⟨bq, hbq, rfl⟩ := blocks_of_spans hb
  have hend : bq.addr + bq.size < 2 ^ 64 := hbound
  have hnb' : n ≤ bq.size := hnb
  obtain ⟨p₁, h₁, hr₁, hs₁⟩ := hr.setSize hbq n
  have hf₁ : p₁.fresh = p.fresh := congrArg Shape.fresh hs₁
  rw [← hf₁] at hfU hfM hfS
  obtain ⟨hr₂, hs₂⟩ := hr₁.newBlock (bq.addr + n) (bq.size - n) hfU hfM hfS
  have hcut : (p₁.newBlock (bq.addr + n) (bq.size - n)).shape = p.shape.cut q bq.span n := by
    have hv₁ : p₁.spans = update p.spans q (some ⟨bq.addr, n⟩) := congrArg Shape.spans hs₁
    rw [hs₂, hs₁, hv₁, hf₁]
    rfl
  have hfspan := p.shape.cut_fresh_span q bq.span n
  rw [← hcut] at hL hfspan hE hG
  obtain ⟨hA, hB⟩ := hL.around hfspan
  have hsome : ∀ r, r ∈ A ++ B ∨ r ∈ E ++ G →
      ∃ d, (p₁.newBlock (bq.addr + n) (bq.size - n)).spans r = some d := by
    intro r hr
    refine hL.mem_isSome (.inr ?_)
    rcases hr with hr | hr
    · simp only [mem_append, mem_cons] at hr ⊢
      tauto
    · refine hL.perm.mem_iff.mp ?_
      simp only [mem_append, mem_cons] at hr ⊢
      tauto
  obtain ⟨p₂, h₂, hr₃, hs₃⟩ :=
    hr₂.insertFreeMList (nodup_append.mp hL.nodup).2.1 hfspan
    (fun r hr => hsome r (.inl hr)) hA hB hL.below
  have hv₃ : p₂.spans = (p₁.newBlock (bq.addr + n) (bq.size - n)).spans :=
    congrArg Shape.spans hs₃
  have hbelow := hL.below
  rw [← hs₃] at hbelow hfspan hE hG
  obtain ⟨p₃, h₃, hr₄, hs₄⟩ := hr₃.insertFreeSList hL.nodupS hfspan
    (fun r hr => hv₃ ▸ hsome r (.inr hr)) hE hG hbelow
  refine ⟨p₁, p₂, p₃, h₁, hf₁, ?_, h₃, hr₄, hs₄.trans (hs₃.trans hcut)⟩
  rw [add64_of_lt (show bq.span.addr + n < 2 ^ 64 by simp only [Block.span]; omega)]
  exact h₂

def Page.served (p : Page) (b : Span) (n : ℕ) : Span :=
  ⟨b.addr, if p.blockAlign ≤ b.size - n then n else b.size⟩

theorem Holds.allocate (h : Holds p U M S) (hqM : q ∈ M)
    (hb : p.spans q = some b) (hn : 0 < n) (hnb : n ≤ b.size)
    (hgn : Nat.gcd p.blockAlign p.size ∣ n) :
    ∃ p' M' S', p.allocate n q = some p' ∧ Holds p' (q :: U) M' S' ∧
      (∀ r ∈ U, p'.spans r = p.spans r) ∧ p'.spans q = some (p.served b n) ∧
      p'.SameFrame p := by
  obtain ⟨A, B, rfl⟩ := append_of_mem hqM
  obtain ⟨C, D, rfl⟩ := append_of_mem (h.layout.perm.mem_iff.mpr hqM)
  have htake := h.layout.take
  obtain ⟨hqU, _⟩ := nodup_cons.mp (nodup_append.mp htake.nodup).1
  have hin := h.layout.tiles.inside q b hb
  have hbound := h.layout.bound
  obtain ⟨p₁, h₁, hr₁, hs₁⟩ :=
    h.raw.removeFreeMList (nodup_append.mp h.layout.nodup).2.1
  obtain ⟨p₂, h₂, hr₂, hs₂⟩ := hr₁.removeFreeSList h.layout.nodupS
  have hs : p₂.shape = p.shape := hs₂.trans hs₁
  have hv₂ : p₂.spans = p.spans := congrArg Shape.spans hs
  have halign : p₂.blockAlign = p.blockAlign := congrArg Shape.blockAlign hs
  obtain ⟨bq, hbq, hbspan⟩ := blocks_of_spans (hv₂ ▸ hb : p₂.spans q = some b)
  have hsize : bq.size = b.size := congrArg Span.size hbspan
  have haddr : bq.addr = b.addr := congrArg Span.addr hbspan
  have hextra : sub64 bq.size n = b.size - n := by
    rw [hsize]
    simp only [stop] at hin
    exact sub64_of_le (by omega) hnb
  by_cases hcut : p.blockAlign ≤ b.size - n
  · have hpos := h.layout.align_pos
    have hpos' : 0 < p.blockAlign := hpos
    obtain ⟨hfU, hfM, hfS⟩ := htake.fresh_not_mem
    have hqf : q ≠ p.fresh := fun he => hfU (by rw [he]; exact mem_cons_self)
    have hsome : ∀ r ∈ C ++ D, ∃ d, p.shape.spans r = some d := fun r hr =>
      htake.mem_isSome (.inr (htake.perm.mem_iff.mp hr))
    obtain ⟨E, G, hEG, hE, hG⟩ := split_sortedS (b.size - n) htake.sortedS hsome
    have hL := h.layout.split hb hn (by omega) hgn hEG hE hG
    have hqEG : q ∉ E ++ G := by
      rw [← hEG]
      exact (nodup_cons.mp (nodup_middle.mp h.layout.nodupS)).1
    have hkeep : ∀ r ∈ E ++ G, (p.shape.cut q b n).spans r = p.shape.spans r := by
      intro r hr
      refine p.shape.cut_other b n (ne_of_mem_of_not_mem hr hqEG) ?_
      exact ne_of_mem_of_not_mem (hEG ▸ hr) hfS
    have hf₂ : p₂.fresh = p.fresh := congrArg Shape.fresh hs
    rw [hEG] at hr₂ hfS
    obtain ⟨p₃, p₄, p₅, h₃, hf₃, h₄, h₅, hr₅, hs₅⟩ := split_spec hr₂
      (by rw [hs, hf₂]; exact hL) (hv₂ ▸ hb) hnb (hin.2.2.trans_lt hbound)
      (by rw [hf₂]; exact fun hm => hfU (mem_cons_of_mem q hm)) (by rw [hf₂]; exact hfM)
      (by rw [hf₂]; exact hfS)
      (by
        intro r hr d hd
        rw [hs, hkeep r (mem_append_left G hr)] at hd
        exact hE r hr d hd)
      (by
        intro r hr d hd
        rw [hs, hkeep r (mem_append_right E hr)] at hd
        exact hG r hr d hd)
    rw [hs] at hs₅
    have hqspan := p.shape.cut_span b n hqf
    obtain ⟨b₅, hb₅, _⟩ := blocks_of_spans
      (show p₅.spans q = _ from (congrFun (congrArg Shape.spans hs₅) q).trans hqspan)
    obtain ⟨p₆, h₆, hr₆, hs₆⟩ :=
      hr₅.insertUsedList (nodup_append.mp htake.nodup).1 hb₅
    have hshape : p₆.shape = p.shape.cut q b n := hs₆.trans hs₅
    have hspans : p₆.spans = (p.shape.cut q b n).spans := congrArg Shape.spans hshape
    refine ⟨p₆, A ++ p.fresh :: B, E ++ p.fresh :: G, ?_, ⟨?_, hshape ▸ hL⟩, ?_, ?_, ?_⟩
    · rw [hf₂] at h₄ h₅
      simp [allocate, h₁, h₂, hbq, hextra, halign, hcut, h₃, haddr, hf₃.trans hf₂,
        h₄, h₅, h₆]
    · rw [← hf₂]
      exact hr₆
    · intro r hr
      rw [hspans]
      refine p.shape.cut_other b n (ne_of_mem_of_not_mem hr hqU) ?_
      exact ne_of_mem_of_not_mem (mem_cons_of_mem q hr) hfU
    · rw [hspans, hqspan, served, if_pos hcut]
    · exact ⟨congrArg Shape.addr hshape, congrArg Shape.size hshape,
        congrArg Shape.blockAlign hshape⟩
  · obtain ⟨p₃, h₃, hr₃, hs₃⟩ :=
      hr₂.insertUsedList (nodup_append.mp htake.nodup).1 hbq
    have hshape : p₃.shape = p.shape := hs₃.trans hs
    have hspans : p₃.spans = p.spans := congrArg Shape.spans hshape
    refine ⟨p₃, A ++ B, C ++ D, ?_, ⟨hr₃, hshape ▸ htake⟩, ?_, ?_, .of_shape hshape⟩
    · simp [allocate, h₁, h₂, hbq, hextra, halign, hcut, h₃]
    · intro r _
      rw [hspans]
    · rw [hspans, hb, served, if_neg hcut]

theorem Holds.below (h : Holds p U M S) (hr : r ∈ U ∨ r ∈ M) : r < p.fresh :=
  h.layout.below r ((h.layout.live r).mpr hr)

theorem findFreeBlockFrom_spec {a : Option Ptr} {b : Block} {fuel : ℕ}
    (hs : Segment freeSLinks p.blocks a (r :: D) none) (hb : p.blocks r = some b)
    (hn : n ≤ b.size) (hfuel : D.length < fuel) :
    ∃ t d, p.findFreeBlockFrom n fuel r = some t ∧ t ∈ r :: D ∧ p.blocks t = some d ∧
      n ≤ d.size := by
  induction D generalizing a r b fuel with
  | nil =>
    obtain ⟨⟨m, hm, _, hnext⟩, _⟩ := hs
    cases hb.symm.trans hm
    have hnext' : b.nextFreeS = none := hnext
    cases fuel with
    | zero => simp at hfuel
    | succ fuel => exact ⟨r, b, by simp [findFreeBlockFrom, hb, hnext'], by simp, hb, hn⟩
  | cons t D ih =>
    obtain ⟨⟨m, hm, _, hnext⟩, hrest⟩ := hs
    cases hb.symm.trans hm
    have hnext' : b.nextFreeS = some t := hnext
    obtain ⟨d, hd⟩ := segment_isSome hrest mem_cons_self
    cases fuel with
    | zero => simp at hfuel
    | succ fuel =>
      by_cases hle : n ≤ d.size
      · obtain ⟨x, e, hx, hxm, he, hne⟩ := ih hrest hd hle (by simpa using hfuel)
        exact ⟨x, e, by simp [findFreeBlockFrom, hb, hnext', hd, hle, hx],
          mem_cons_of_mem r hxm, he, hne⟩
      · exact ⟨r, b, by simp [findFreeBlockFrom, hb, hnext', hd, hle], by simp, hb, hn⟩

theorem Holds.findFreeBlock (h : Holds p U M S) (n : ℕ) :
    (∃ t d, p.findFreeBlock n = some (some t) ∧ t ∈ M ∧ p.spans t = some d ∧
      n ≤ d.size) ∨
      (p.findFreeBlock n = some none ∧ ∀ t ∈ M, ∀ d, p.spans t = some d →
        d.size < n) := by
  have hhead := h.raw.freeS.1
  cases S with
  | nil =>
    right
    refine ⟨by simp [findFreeBlock, hhead], ?_⟩
    intro t ht
    exact absurd (h.layout.perm.mem_iff.mpr ht) not_mem_nil
  | cons r D =>
    have hrM : r ∈ M := h.layout.perm.mem_iff.mp mem_cons_self
    obtain ⟨b, hb, hspan⟩ := h.block (.inr hrM)
    by_cases hle : n ≤ b.size
    · left
      have hlen : D.length < p.fresh + 1 := by
        have hlt := length_lt_of_lt h.layout.nodupS
          (fun t ht => h.below (.inr (h.layout.perm.mem_iff.mp ht)))
        simp only [length_cons] at hlt
        omega
      obtain ⟨t, d, ht, htm, hd, hnd⟩ := findFreeBlockFrom_spec h.raw.freeS.2 hb hle hlen
      refine ⟨t, d.span, ?_, h.layout.perm.mem_iff.mp htm, spans_eq_some hd, hnd⟩
      simp [findFreeBlock, hhead, hb, hle, ht]
    · right
      refine ⟨by simp [findFreeBlock, hhead, hb, hle], ?_⟩
      intro t ht d hd
      -- the head of the S-list is the largest free block
      have hmax : d.size ≤ b.size := by
        rcases mem_cons.mp (h.layout.perm.mem_iff.mpr ht) with htr | htD
        · subst htr
          cases hspan.symm.trans hd
          exact le_rfl
        · exact (pairwise_cons.mp h.layout.sortedS).1 t htD b.span hspan d hd
      omega

theorem findUsedBlockFrom_spec {a : Option Ptr} {x fuel : ℕ}
    (hs : Segment usedLinks p.blocks a U none) (hfuel : U.length < fuel) :
    (∃ t d, p.findUsedBlockFrom x fuel U.head? = some (some t) ∧ t ∈ U ∧
      p.blocks t = some d ∧ d.addr = x) ∨
    (p.findUsedBlockFrom x fuel U.head? = some none ∧
      ∀ t ∈ U, ∀ d, p.blocks t = some d → d.addr ≠ x) := by
  induction U generalizing a fuel with
  | nil =>
    cases fuel with
    | zero => simp at hfuel
    | succ fuel => exact .inr ⟨rfl, by simp⟩
  | cons r U ih =>
    obtain ⟨⟨b, hb, _, hnext⟩, hrest⟩ := hs
    rw [or_none] at hnext
    have hnext' : b.nextUsed = U.head? := hnext
    cases fuel with
    | zero => simp at hfuel
    | succ fuel =>
      by_cases hx : b.addr = x
      · exact .inl ⟨r, b, by simp [findUsedBlockFrom, hb, hx], by simp, hb, hx⟩
      have hstep : p.findUsedBlockFrom x (fuel + 1) (r :: U).head? =
          p.findUsedBlockFrom x fuel U.head? := by
        simp [findUsedBlockFrom, hb, hx, hnext']
      rw [hstep]
      rcases ih hrest (by simpa using hfuel) with ⟨t, d, ht, hm, hd, hdx⟩ | ⟨ht, hno⟩
      · exact .inl ⟨t, d, ht, mem_cons_of_mem r hm, hd, hdx⟩
      refine .inr ⟨ht, ?_⟩
      intro t hm d hd
      rcases mem_cons.mp hm with htr | htU
      · subst htr
        cases hb.symm.trans hd
        exact hx
      · exact hno t htU d hd

theorem Holds.findUsedBlock (h : Holds p U M S) (x : ℕ) :
    (∃ t d, p.findUsedBlock x = some (some t) ∧ t ∈ U ∧ p.spans t = some d ∧
      d.addr = x) ∨
      (p.findUsedBlock x = some none ∧ ∀ t ∈ U, ∀ d, p.spans t = some d →
        d.addr ≠ x) := by
  have hbound := h.layout.bound
  have hend : add64 p.addr p.size = p.addr + p.size := add64_of_lt hbound
  by_cases hin : p.addr ≤ x ∧ x < p.addr + p.size
  · have hlen : U.length < p.fresh + 1 :=
      length_lt_of_lt (nodup_append.mp h.layout.nodup).1 (fun t ht => h.below (.inl ht))
    have heq : p.findUsedBlock x = p.findUsedBlockFrom x (p.fresh + 1) U.head? := by
      rw [Page.findUsedBlock, hend, if_pos hin, h.raw.used.1]
    rw [heq]
    rcases findUsedBlockFrom_spec h.raw.used.2 hlen with ⟨t, d, ht, hm, hd, hdx⟩ | ⟨ht, hno⟩
    · exact .inl ⟨t, d.span, ht, hm, spans_eq_some hd, hdx⟩
    · refine .inr ⟨ht, ?_⟩
      intro t hm d hd
      obtain ⟨bd, hbd, rfl⟩ := blocks_of_spans hd
      exact hno t hm bd hbd
  · refine .inr ⟨by rw [Page.findUsedBlock, hend, if_neg hin], ?_⟩
    intro t _ d hd
    have hd' := h.layout.tiles.inside t d hd
    simp only [stop] at hd'
    have hpa : p.shape.addr = p.addr := rfl
    have hps : p.shape.size = p.size := rfl
    omega

theorem holds_new {addr size blockAlign : ℕ} (hs : 0 < size) (ha : 0 < blockAlign)
    (hb : addr + size < 2 ^ 64) : Holds (new addr size blockAlign) [] [0] [0] := by
  have hblock : (new addr size blockAlign).blocks 0 = some (Block.new addr size) := by
    simp [new]
  have hother : ∀ q, q ≠ 0 → (new addr size blockAlign).blocks q = none := by
    intro q hq
    simp only [new, update_of_ne hq]
  have hspans : (new addr size blockAlign).spans =
      update (fun _ => none) 0 (some ⟨addr, addr + size - addr⟩) := by
    funext q
    by_cases hq : q = 0
    · subst hq
      simp [spans, hblock, Block.span, Block.new]
    · simp [spans, hother q hq, update_of_ne hq]
  have hlive : ∀ q, ((new addr size blockAlign).spans q).isSome ↔ q = 0 := by
    intro q
    by_cases hq : q = 0
    · subst hq
      simp [spans, hblock]
    · simp [spans, hother q hq, hq]
  refine ⟨⟨⟨rfl, trivial⟩, ⟨rfl, ⟨_, hblock, rfl, rfl⟩, trivial⟩,
    ⟨rfl, ⟨_, hblock, rfl, rfl⟩, trivial⟩,
    ?_⟩, ⟨by simp, .refl _, ?_, ?_, ?_, by simp, by simp, ha, hb, ?_⟩⟩
  · intro q _ b hqb
    by_cases hq : q = 0
    · subst hq
      cases hblock.symm.trans hqb
      rfl
    · simp [hother q hq] at hqb
  · intro q
    rw [shape_spans, hlive q]
    simp
  · intro q hq
    rw [shape_spans, hlive q] at hq
    rw [hq]
    exact Nat.one_pos
  · rw [shape_spans, hspans]
    exact Tiles.single (Nat.lt_add_of_pos_right hs)
  · intro q b hq
    rw [shape_spans, hspans] at hq
    by_cases hq0 : q = 0
    · subst hq0
      rw [update_self, some.injEq, Nat.add_sub_cancel_left] at hq
      subst hq
      exact Nat.gcd_dvd_right _ _
    · simp [update_of_ne hq0] at hq

theorem Holds.empty_iff (h : Holds p U M S) : p.empty = true ↔ U = [] := by
  have hhead := h.raw.used.1
  cases U with
  | nil | cons q U => simp [empty, hhead]

theorem Holds.single_free (h : Holds p [] M S) (hpos : 0 < p.size) : ∃ m, M = [m] := by
  have hcover := h.layout.tiles.cover
  have hlive : ∀ r e, p.shape.spans r = some e → r ∈ M := by
    intro r e he
    rcases (h.layout.live r).mp (by simp [he]) with hr | hr
    · exact absurd hr not_mem_nil
    · exact hr
  cases M with
  | nil =>
    obtain ⟨r, e, he, _⟩ := hcover p.addr le_rfl (Nat.lt_add_of_pos_right hpos)
    exact absurd (hlive r e he) not_mem_nil
  | cons m M =>
    cases M with
    | nil => exact ⟨m, rfl⟩
    | cons m₂ M =>
      exfalso
      have hsorted := (pairwise_cons.mp h.layout.sortedM).1
      obtain ⟨b, hb⟩ := h.layout.mem_isSome (.inr (by simp : m ∈ m :: m₂ :: M))
      obtain ⟨c, hc⟩ := h.layout.mem_isSome (.inr (by simp : m₂ ∈ m :: m₂ :: M))
      have hlt := hsorted m₂ mem_cons_self b hb c hc
      have hbin := h.layout.tiles.inside m b hb
      have hcin := h.layout.tiles.inside m₂ c hc
      simp only [stop] at hlt hbin hcin
      -- the address right after `b` belongs to no block
      obtain ⟨r, e, he, h₁, h₂⟩ := hcover b.stop (by simp only [stop]; omega)
        (by simp only [stop]; omega)
      rcases mem_cons.mp (hlive r e he) with hr | hr
      · subst hr
        cases hb.symm.trans he
        exact lt_irrefl _ h₂
      · exact absurd (hsorted r hr b hb e he) (Nat.not_lt.mpr h₁)

theorem Holds.destroy (h : Holds p [] M S) (hpos : 0 < p.size) : p.destroy = some () := by
  obtain ⟨m, rfl⟩ := h.single_free hpos
  have hused : p.usedList = none := h.raw.used.1
  have hhead : p.freeMList = some m := h.raw.freeM.1
  obtain ⟨b, hb, hprev, hnext⟩ := h.raw.freeM.2.1
  have hprev' : b.prevFreeM = none := hprev
  have hnext' : b.nextFreeM = none := hnext
  simp [destroy, hused, hhead, hb, hprev', hnext']

theorem Holds.usedBlocks (h : Holds p U M S) : p.usedBlocks = some (U.filterMap p.spans) := by
  have hlen := length_lt_of_lt (nodup_append.mp h.layout.nodup).1
    (fun t ht => h.below (.inl ht))
  simp [Page.usedBlocks, Page.listed, walk_spec h.raw.used hlen]

theorem Holds.freeMBlocks (h : Holds p U M S) : p.freeMBlocks = some (M.filterMap p.spans) := by
  have hlen := length_lt_of_lt (nodup_append.mp h.layout.nodup).2.1
    (fun t ht => h.below (.inr ht))
  simp [Page.freeMBlocks, Page.listed, walk_spec h.raw.freeM hlen]

theorem Holds.freeSBlocks (h : Holds p U M S) : p.freeSBlocks = some (S.filterMap p.spans) := by
  have hlen := length_lt_of_lt h.layout.nodupS
    (fun t ht => h.below (.inr (h.layout.perm.mem_iff.mp ht)))
  simp [Page.freeSBlocks, Page.listed, walk_spec h.raw.freeS hlen]

end VortexGpu.MemAlloc

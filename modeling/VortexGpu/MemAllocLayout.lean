import VortexGpu.MemAllocLists

/-!
# The layout of a page: used and free blocks tile it

`Layout` is the part of the page invariant that speaks of spans only: used and free blocks tile the
page, the M-list is in increasing address order with no two blocks touching, the S-list holds the
same blocks by decreasing size. `Holds` adds that the linked lists hold these pointers.
-/

namespace VortexGpu.MemAlloc
open IntrusiveList Word Nat
open Function (update update_apply update_of_ne update_self)
open List Option

def Before (v : Ptr → Option Span) (q r : Ptr) : Prop :=
  ∀ b, v q = some b → ∀ c, v r = some c → b.stop < c.addr

def NotSmaller (v : Ptr → Option Span) (q r : Ptr) : Prop :=
  ∀ b, v q = some b → ∀ c, v r = some c → c.size ≤ b.size

def Grained (sh : Shape) : Prop :=
  ∀ q b, sh.spans q = some b → Nat.gcd sh.blockAlign sh.size ∣ b.size

structure Layout (sh : Shape) (U M S : List Ptr) : Prop where
  nodup : (U ++ M).Nodup
  perm : S.Perm M
  live : ∀ q, (sh.spans q).isSome ↔ q ∈ U ∨ q ∈ M
  below : ∀ q, (sh.spans q).isSome → q < sh.fresh
  tiles : Tiles sh.spans sh.addr (sh.addr + sh.size)
  sortedM : M.Pairwise (Before sh.spans)
  sortedS : S.Pairwise (NotSmaller sh.spans)
  align_pos : 0 < sh.blockAlign
  bound : sh.addr + sh.size < 2 ^ 64
  grain : Grained sh

structure Holds (p : Page) (U M S : List Ptr) : Prop where
  raw : Raw p U M S
  layout : Layout p.shape U M S

structure Open (sh : Shape) (U A B S : List Ptr) (c : Ptr) : Prop where
  nodup : (U ++ (A ++ c :: B)).Nodup
  perm : S.Perm (A ++ B)
  live : ∀ q, (sh.spans q).isSome ↔ q ∈ U ∨ q ∈ A ++ c :: B
  below : ∀ q, (sh.spans q).isSome → q < sh.fresh
  tiles : Tiles sh.spans sh.addr (sh.addr + sh.size)
  sortedM : (A ++ B).Pairwise (Before sh.spans)
  sortedS : S.Pairwise (NotSmaller sh.spans)
  left : ∀ a ∈ A, ∀ b, sh.spans a = some b → ∀ d, sh.spans c = some d →
    b.stop ≤ d.addr
  right : ∀ a ∈ B, ∀ b, sh.spans a = some b → ∀ d, sh.spans c = some d →
    d.stop ≤ b.addr
  align_pos : 0 < sh.blockAlign
  bound : sh.addr + sh.size < 2 ^ 64
  grain : Grained sh

variable {sh : Shape} {U A B M S : List Ptr} {q c : Ptr}

variable {v w : Ptr → Option Span} {C D : List Ptr} {b : Span}

theorem exists_span (h : (v q).isSome) : ∃ b, v q = some b :=
  isSome_iff_exists.mp h

theorem split_of_pairwise {α : Type} {R : α → α → Prop} {P Q : α → Prop} {l : List α}
    (hl : l.Pairwise R) (hPQ : ∀ r ∈ l, P r ∨ Q r)
    (hstep : ∀ m ∈ l, ∀ r ∈ l, R m r → Q m → Q r) :
    ∃ A B, l = A ++ B ∧ (∀ r ∈ A, P r) ∧ ∀ r ∈ B, Q r := by
  induction l with
  | nil => exact ⟨[], [], rfl, by simp, by simp⟩
  | cons m l ih =>
    obtain ⟨hm, hl'⟩ := pairwise_cons.mp hl
    rcases hPQ m mem_cons_self with hP | hQ
    · obtain ⟨A, B, rfl, hA, hB⟩ := ih hl' (fun r hr => hPQ r (mem_cons_of_mem m hr))
        (fun a ha r hr => hstep a (mem_cons_of_mem m ha) r (mem_cons_of_mem m hr))
      exact ⟨m :: A, B, rfl, forall_mem_cons.mpr ⟨hP, hA⟩, hB⟩
    · refine ⟨[], m :: l, rfl, by simp, forall_mem_cons.mpr ⟨hQ, fun r hr => ?_⟩⟩
      exact hstep m mem_cons_self r (mem_cons_of_mem m hr) (hm r hr) hQ

theorem split_sortedM {x : Span} (hM : M.Pairwise (Before v))
    (hlive : ∀ r ∈ M, ∃ b, v r = some b ∧ 0 < b.size ∧ b.Apart x) :
    ∃ A B, M = A ++ B ∧ (∀ r ∈ A, ∀ b, v r = some b → b.stop ≤ x.addr) ∧
      ∀ r ∈ B, ∀ b, v r = some b → x.stop ≤ b.addr := by
  refine split_of_pairwise hM (fun r hr => ?_) (fun m hm r _ hmr hge d hd => ?_)
  · obtain ⟨b, hb, _, hap⟩ := hlive r hr
    simp only [hb, some.injEq, forall_eq']
    exact hap
  · obtain ⟨b, hb, hpos, _⟩ := hlive m hm
    have hle := hge b hb
    have hlt := hmr b hb d hd
    simp only [Span.stop] at hle hlt ⊢
    omega

theorem split_sortedS (n : ℕ) (hS : S.Pairwise (NotSmaller v))
    (hlive : ∀ r ∈ S, ∃ b, v r = some b) :
    ∃ C D, S = C ++ D ∧ (∀ r ∈ C, ∀ b, v r = some b → n < b.size) ∧
      ∀ r ∈ D, ∀ b, v r = some b → b.size ≤ n := by
  refine split_of_pairwise hS (fun r hr => ?_) (fun m hm r _ hmr hle d hd => ?_)
  · obtain ⟨b, hb⟩ := hlive r hr
    simp only [hb, some.injEq, forall_eq']
    exact lt_or_ge n b.size
  · obtain ⟨b, hb⟩ := hlive m hm
    exact (hmr b hb d hd).trans (hle b hb)

section Sorted
variable {P : Span → Span → Prop} {l : List Ptr}

theorem sorted_congr
    (h : l.Pairwise fun q r => ∀ b, v q = some b → ∀ c, v r = some c → P b c)
    (he : ∀ q ∈ l, v q = w q) : l.Pairwise fun q r => ∀ b, w q = some b → ∀ c,
      w r = some c → P b c :=
  h.imp_of_mem fun hq hr hqr b hb c hc => hqr b ((he _ hq).trans hb) c ((he _ hr).trans hc)

theorem sorted_insert
    (h : (A ++ B).Pairwise fun q r => ∀ b, v q = some b → ∀ c, v r = some c → P b c)
    (hq : v q = some b) (hA : ∀ r ∈ A, ∀ d, v r = some d → P d b)
    (hB : ∀ r ∈ B, ∀ d, v r = some d → P b d) :
    (A ++ q :: B).Pairwise fun q r => ∀ b, v q = some b → ∀ c, v r = some c → P b c := by
  obtain ⟨h₁, h₂, h₃⟩ := pairwise_append.mp h
  refine pairwise_append.mpr ⟨h₁, pairwise_cons.mpr ⟨fun r hr x hx y hy => ?_, h₂⟩,
    fun r hr =>
    forall_mem_cons.mpr ⟨fun x hx y hy => ?_, h₃ r hr⟩⟩
  · cases hq.symm.trans hx
    exact hB r hr y hy
  · cases hq.symm.trans hy
    exact hA r hr x hx

end Sorted

theorem perm_drop (h : (C ++ q :: D).Perm (A ++ q :: B)) : (C ++ D).Perm (A ++ B) :=
  (perm_middle.symm.trans (h.trans perm_middle)).cons_inv

theorem sublist_drop (A : List Ptr) (q : Ptr) (B : List Ptr) : (A ++ B).Sublist (A ++ q :: B) :=
  (List.Sublist.refl A).append (sublist_cons_self q B)

theorem Layout.take (h : Layout sh U (A ++ q :: B) (C ++ q :: D)) :
    Layout sh (q :: U) (A ++ B) (C ++ D) :=
  { h with
    nodup := by
      have hnd := h.nodup
      rwa [← append_assoc, nodup_middle, append_assoc] at hnd
    perm := perm_drop h.perm
    live := fun r => by
      rw [h.live r]
      simp only [mem_append, mem_cons]
      tauto
    sortedM := h.sortedM.sublist (sublist_drop A q B)
    sortedS := h.sortedS.sublist (sublist_drop C q D) }

theorem Layout.mem_isSome (h : Layout sh U M S) {r : Ptr} (hr : r ∈ U ∨ r ∈ M) :
    ∃ b, sh.spans r = some b := exists_span ((h.live r).mpr hr)

theorem Layout.fresh_not_mem (h : Layout sh U M S) :
    sh.fresh ∉ U ∧ sh.fresh ∉ M ∧ sh.fresh ∉ S := by
  have hnone : ∀ l : List Ptr, (∀ r ∈ l, r ∈ U ∨ r ∈ M) → sh.fresh ∉ l := by
    intro l hl hm
    exact lt_irrefl _ (h.below _ ((h.live _).mpr (hl _ hm)))
  exact ⟨hnone U (fun r hr => Or.inl hr), hnone M (fun r hr => Or.inr hr),
    hnone S (fun r hr => Or.inr (h.perm.mem_iff.mp hr))⟩

/-- The shape after the block `q` was cut after `n` bytes. -/
def Shape.cut (sh : Shape) (q : Ptr) (b : Span) (n : ℕ) : Shape :=
  { sh with fresh := sh.fresh + 1,
            spans := update (update sh.spans q (some ⟨b.addr, n⟩)) sh.fresh
              (some ⟨b.addr + n, b.size - n⟩) }

section Cut
variable {b : Span} {n : ℕ}

theorem Shape.cut_fresh_span (sh : Shape) (q : Ptr) (b : Span) (n : ℕ) :
    (sh.cut q b n).spans sh.fresh = some ⟨b.addr + n, b.size - n⟩ := update_self ..

theorem Shape.cut_span (sh : Shape) (b : Span) (n : ℕ) (h : q ≠ sh.fresh) :
    (sh.cut q b n).spans q = some ⟨b.addr, n⟩ := by
  simp only [Shape.cut]
  rw [update_of_ne h, update_self]

theorem Shape.cut_other (sh : Shape) (b : Span) (n : ℕ) {r : Ptr} (hq : r ≠ q)
    (hf : r ≠ sh.fresh) : (sh.cut q b n).spans r = sh.spans r := by
  simp only [Shape.cut]
  rw [update_of_ne hf, update_of_ne hq]

theorem Grained.cut (h : Grained sh) (hq : sh.spans q = some b)
    (hn : Nat.gcd sh.blockAlign sh.size ∣ n) : Grained (sh.cut q b n) := by
  intro r e he
  simp only [Shape.cut, update_apply] at he
  split_ifs at he
  · cases he
    exact Nat.dvd_sub (h q b hq) hn
  · cases he
    exact hn
  · exact h r e he

theorem Layout.split {C D E G : List Ptr} (h : Layout sh U (A ++ q :: B) (C ++ q :: D))
    (hq : sh.spans q = some b) (hn : 0 < n) (hnb : n < b.size)
    (hgn : Nat.gcd sh.blockAlign sh.size ∣ n) (hCD : C ++ D = E ++ G)
    (hE : ∀ r ∈ E, ∀ d, sh.spans r = some d → b.size - n < d.size)
    (hG : ∀ r ∈ G, ∀ d, sh.spans r = some d → d.size ≤ b.size - n) :
    Layout (sh.cut q b n) (q :: U) (A ++ sh.fresh :: B) (E ++ sh.fresh :: G) := by
  have ht := h.take
  obtain ⟨hfU, hfM, _⟩ := ht.fresh_not_mem
  have hfnone : sh.spans sh.fresh = none := by
    by_contra hne
    exact lt_irrefl _ (h.below _ (isSome_iff_ne_none.mpr hne))
  have hqAB : q ∉ A ++ B := by
    have hnd := ht.nodup
    simp only [cons_append, nodup_cons, mem_append, not_or] at hnd ⊢
    exact hnd.1.2
  have hkeepM : ∀ r ∈ A ++ B, sh.spans r = (sh.cut q b n).spans r := by
    intro r hr
    exact (sh.cut_other b n (ne_of_mem_of_not_mem hr hqAB) (ne_of_mem_of_not_mem hr hfM)).symm
  have hkeepS : ∀ r ∈ E ++ G, sh.spans r = (sh.cut q b n).spans r := by
    intro r hr
    exact hkeepM r (ht.perm.mem_iff.mp (hCD ▸ hr))
  have hsplit := pairwise_append.mp h.sortedM
  refine ⟨?_, ?_, ?_, ?_, ?_, ?_, ?_, h.align_pos, h.bound, h.grain.cut hq hgn⟩
  · rw [← append_assoc, nodup_middle, nodup_cons, append_assoc]
    refine ⟨?_, ht.nodup⟩
    simp only [mem_append, not_or] at hfM ⊢
    exact ⟨hfU, hfM⟩
  · refine perm_middle.trans ((List.Perm.cons _ ?_).trans perm_middle.symm)
    exact hCD ▸ ht.perm
  · intro r
    simp only [Shape.cut, update_apply]
    split_ifs with hrf hrq
    · simp [hrf]
    · simp [hrq]
    · rw [ht.live r]
      simp [hrf]
  · intro r hr
    simp only [Shape.cut, update_apply] at hr
    split_ifs at hr with hrf hrq
    · exact hrf ▸ lt_succ_self _
    · exact (h.below r (by simp [hrq, hq])).trans (lt_succ_self _)
    · exact (h.below r hr).trans (lt_succ_self _)
  · exact h.tiles.split hq hfnone hn hnb
  · refine sorted_insert (sorted_congr ht.sortedM hkeepM) (sh.cut_fresh_span q b n) ?_ ?_
    · intro r hr d hd
      rw [← hkeepM r (mem_append_left B hr)] at hd
      have hlt := hsplit.2.2 r hr q mem_cons_self d hd b hq
      simp only [Span.stop] at hlt ⊢
      omega
    · intro r hr d hd
      rw [← hkeepM r (mem_append_right A hr)] at hd
      have hlt := (pairwise_cons.mp hsplit.2.1).1 r hr b hq d hd
      simp only [Span.stop] at hlt ⊢
      omega
  · refine sorted_insert (sorted_congr (hCD ▸ ht.sortedS) hkeepS) (sh.cut_fresh_span q b n) ?_ ?_
    · intro r hr d hd
      rw [← hkeepS r (mem_append_left G hr)] at hd
      exact (hE r hr d hd).le
    · intro r hr d hd
      rw [← hkeepS r (mem_append_right E hr)] at hd
      exact hG r hr d hd

end Cut

theorem Layout.open {X Y : List Ptr} (h : Layout sh (X ++ q :: Y) (A ++ B) S)
    (hq : sh.spans q = some b) (hA : ∀ r ∈ A, ∀ d, sh.spans r = some d → d.stop ≤ b.addr)
    (hB : ∀ r ∈ B, ∀ d, sh.spans r = some d → b.stop ≤ d.addr) :
    Open sh (X ++ Y) A B S q :=
  { h with
    nodup := by
      have hnd := h.nodup
      rw [append_assoc, cons_append, nodup_middle] at hnd
      rwa [← append_assoc, nodup_middle, append_assoc, append_assoc]
    live := fun r => by
      rw [h.live r]
      simp only [mem_append, mem_cons]
      tauto
    left := fun a ha x hx d hd => by
      cases hq.symm.trans hd
      exact hA a ha x hx
    right := fun a ha x hx d hd => by
      cases hq.symm.trans hd
      exact hB a ha x hx }

theorem Open.close (h : Open sh U A B (C ++ D) c)
    (hc : sh.spans c = some b) (hA : ∀ r ∈ A, ∀ d, sh.spans r = some d → d.stop < b.addr)
    (hB : ∀ r ∈ B, ∀ d, sh.spans r = some d → b.stop < d.addr)
    (hC : ∀ r ∈ C, ∀ d, sh.spans r = some d → b.size < d.size)
    (hD : ∀ r ∈ D, ∀ d, sh.spans r = some d → d.size ≤ b.size) :
    Layout sh U (A ++ c :: B) (C ++ c :: D) :=
  { h with
    perm := perm_middle.trans ((List.Perm.cons _ h.perm).trans perm_middle.symm)
    sortedM := sorted_insert h.sortedM hc hA hB
    sortedS := sorted_insert h.sortedS hc (fun r hr d hd => (hC r hr d hd).le) hD }

def Shape.fuse (sh : Shape) (x y : Ptr) (b d : Span) : Shape :=
  { sh with spans := update (update sh.spans x
              (some ⟨b.addr, b.size + d.size⟩)) y none }

section Fuse
variable {x y : Ptr} {b d : Span}

theorem Shape.fuse_span (sh : Shape) (b d : Span) (h : x ≠ y) :
    (sh.fuse x y b d).spans x = some ⟨b.addr, b.size + d.size⟩ := by
  simp only [Shape.fuse]
  rw [update_of_ne h, update_self]

theorem Shape.fuse_other (sh : Shape) (b d : Span) {r : Ptr} (hx : r ≠ x) (hy : r ≠ y) :
    (sh.fuse x y b d).spans r = sh.spans r := by
  simp only [Shape.fuse]
  rw [update_of_ne hy, update_of_ne hx]

theorem Grained.fuse (h : Grained sh) (hx : sh.spans x = some b) (hy : sh.spans y = some d) :
    Grained (sh.fuse x y b d) := by
  intro r e he
  simp only [Shape.fuse, update_apply] at he
  split_ifs at he
  · cases he
    exact Nat.dvd_add (h x b hx) (h y d hy)
  · exact h r e he

theorem Open.of_fuse {A' B' S' : List Ptr} (h : Open sh U A' B' S' c)
    (hlist : A' ++ c :: B' = A ++ x :: y :: B)
    (hsub : (A ++ B).Sublist (A' ++ B')) (hperm : S.Perm (A ++ B)) (hS : S.Sublist S')
    (hx : sh.spans x = some b) (hy : sh.spans y = some d) (hxy : b.stop = d.addr)
    (hA : ∀ r ∈ A, ∀ e, sh.spans r = some e → e.stop ≤ b.addr)
    (hB : ∀ r ∈ B, ∀ e, sh.spans r = some e → d.stop ≤ e.addr) :
    Open (sh.fuse x y b d) U A B S x := by
  have hnd := h.nodup
  have hsplit : U ++ (A ++ x :: y :: B) = (U ++ A ++ [x]) ++ y :: B := by simp
  have hjoin : (U ++ A ++ [x]) ++ B = U ++ (A ++ x :: B) := by simp
  rw [hlist, hsplit, nodup_middle, nodup_cons, hjoin] at hnd
  obtain ⟨hyout, hnd'⟩ := hnd
  have hyx : x ≠ y := by
    intro he
    apply hyout
    simp [he]
  have hxAB : x ∉ A ++ B :=
    (nodup_cons.mp (nodup_middle.mp (nodup_append.mp hnd').2.1)).1
  have hyAB : y ∉ A ++ B := by
    intro hm
    apply hyout
    simp only [mem_append, mem_cons] at hm ⊢
    tauto
  have hkeep : ∀ r ∈ A ++ B, sh.spans r = (sh.fuse x y b d).spans r := by
    intro r hr
    exact (sh.fuse_other b d (ne_of_mem_of_not_mem hr hxAB) (ne_of_mem_of_not_mem hr hyAB)).symm
  have hxs := sh.fuse_span b d hyx
  refine ⟨hnd', hperm, ?_, ?_, h.tiles.merge hx hy hxy,
    sorted_congr (h.sortedM.sublist hsub) hkeep,
    sorted_congr (h.sortedS.sublist hS) (fun r hr => hkeep r (hperm.mem_iff.mp hr)), ?_, ?_,
    h.align_pos, h.bound, h.grain.fuse hx hy⟩
  · intro r
    simp only [Shape.fuse, update_apply]
    split_ifs with hry hrx
    · subst hry
      simp only [isSome_none, Bool.false_eq_true, false_iff]
      exact fun hr => hyout (mem_append.mpr hr)
    · simp [hrx]
    · rw [h.live r, hlist]
      simp [hry]
  · intro r hr
    simp only [Shape.fuse, update_apply] at hr
    split_ifs at hr with hry hrx
    · cases hr
    · exact h.below r (by simp [hrx, hx])
    · exact h.below r hr
  · intro r hr e he f hf
    rw [← hkeep r (mem_append_left B hr)] at he
    cases hxs.symm.trans hf
    exact hA r hr e he
  · intro r hr e he f hf
    rw [← hkeep r (mem_append_right A hr)] at he
    cases hxs.symm.trans hf
    have hle := hB r hr e he
    simp only [Span.stop] at hle hxy ⊢
    omega

theorem Open.fuse_right {C D : List Ptr} (h : Open sh U A (y :: B) (C ++ y :: D) x)
    (hx : sh.spans x = some b) (hy : sh.spans y = some d) (hxy : b.stop = d.addr) :
    Open (sh.fuse x y b d) U A B (C ++ D) x := by
  refine h.of_fuse rfl (sublist_drop A y B) (perm_drop h.perm) (sublist_drop C y D) hx hy hxy
    (fun r hr e he => h.left r hr e he b hx) ?_
  intro r hr e he
  have hlt := (pairwise_cons.mp (pairwise_append.mp h.sortedM).2.1).1 r hr d hy e he
  exact hlt.le

theorem Open.fuse_left {C D : List Ptr} (h : Open sh U (A ++ [x]) B (C ++ x :: D) y)
    (hx : sh.spans x = some b) (hy : sh.spans y = some d) (hxy : b.stop = d.addr) :
    Open (sh.fuse x y b d) U A B (C ++ D) x := by
  have hjoin : (A ++ [x]) ++ B = A ++ x :: B := by simp
  refine h.of_fuse (by simp) (hjoin ▸ sublist_drop A x B) (perm_drop (hjoin ▸ h.perm))
    (sublist_drop C x D) hx hy hxy ?_
    fun r hr e he => h.right r hr e he d hy
  intro r hr e he
  have hlt := (pairwise_append.mp (pairwise_append.mp h.sortedM).1).2.2 r hr x
    mem_cons_self e he b hx
  exact hlt.le

end Fuse

end VortexGpu.MemAlloc

import VortexGpu.MemAlloc

/-!
# Specifications of the allocator's calls

`Inv Q` is the allocator's invariant, with a property `Q` that every page range
has. A call that succeeds either hands out one block (`Served`) or takes one
back (`Freed`); everything later is derived from these two descriptions.
-/

namespace VortexGpu.MemAlloc
open IntrusiveList Word MemoryAllocator List Nat Span Option

structure PageOk (Q : Span → Prop) (blockAlign : ℕ) (p : Page) : Prop where
  wellFormed : p.WellFormed
  aligned : p.blockAlign = blockAlign
  inUse : p.used ≠ []
  placed : Q p.range

structure Inv (Q : Span → Prop) (s : MemoryAllocator) : Prop where
  blockPow : ∃ k < 32, s.blockAlign = 2 ^ k
  pagePow : ∃ k < 32, s.pageAlign = 2 ^ k
  ok : ∀ p ∈ s.pages, PageOk Q s.blockAlign p
  sorted : s.pages.Pairwise (fun p q => p.range.stop ≤ q.addr)

structure Served (Q : Span → Prop) (s s' : MemoryAllocator) (n : ℕ) (b : Span) : Prop where
  geometry : s'.toGeometry = s.toGeometry
  inv : Inv Q s'
  live : s'.live.Perm (b :: s.live)
  enough : n ≤ b.size
  exact : (∀ r, Q r → s.blockAlign ∣ r.size) → s.blockAlign ∣ n → b.size = n
  inside : ∃ r, Q r ∧ r.addr ≤ b.addr ∧ b.stop ≤ r.stop
  allocated : s'.allocated = add64 s.allocated n

structure Freed (Q : Span → Prop) (s s' : MemoryAllocator) (b : Span) : Prop where
  geometry : s'.toGeometry = s.toGeometry
  inv : Inv Q s'
  live : s.live.Perm (b :: s'.live)
  allocated : s'.allocated = sub64 s.allocated b.size

variable {Q : Span → Prop} {s : MemoryAllocator} {A B : List Page} {p : Page} {addr size n : ℕ}

theorem alignSize_eq {alignment : ℕ} (h : ∃ k < 32, alignment = 2 ^ k) (size : ℕ) :
    alignSize size alignment = some (alignUp64 size alignment) := by
  obtain ⟨k, hk, rfl⟩ := h
  have hlt : 2 ^ k < 2 ^ 64 := Nat.pow_lt_pow_right (by norm_num) (by omega)
  have hsub : sub64 (2 ^ k) 1 = 2 ^ k - 1 := sub64_of_le hlt (Nat.two_pow_pos k)
  rw [alignSize, hsub, land_mask, mod_self, if_pos rfl]

theorem alignUp64_pow {alignment : ℕ} (h : ∃ k < 32, alignment = 2 ^ k)
    (hw : size + alignment ≤ 2 ^ 64) :
    size ≤ alignUp64 size alignment ∧ alignment ∣ alignUp64 size alignment := by
  obtain ⟨k, hk, rfl⟩ := h
  exact ⟨le_alignUp64 (by omega) (by omega), dvd_alignUp64 (by omega) (by omega)⟩

theorem Inv.size_pos (h : Inv Q s) (hp : p ∈ s.pages) : 0 < p.size := by
  obtain ⟨b, hb⟩ := exists_mem_of_ne_nil _ (h.ok p hp).inUse
  have hin := (h.ok p hp).wellFormed.used_inside hb
  simp only [stop] at hin
  omega

theorem findPage_spec {search : Page → Option (Option Ptr)} {pages : List Page}
    (hs : ∀ p ∈ pages, ∃ r, search p = some r) :
    (∃ A p B q, pages = A ++ p :: B ∧ findPage search pages = some (some (A.length, q)) ∧
      search p = some (some q)) ∨
    (findPage search pages = some none ∧ ∀ p ∈ pages, search p = some none) := by
  induction pages with
  | nil => exact .inr ⟨rfl, by simp⟩
  | cons p pages ih =>
    obtain ⟨r, hr⟩ := hs p mem_cons_self
    cases r with
    | some q => exact .inl ⟨[], p, pages, q, rfl, by simp [findPage, hr], hr⟩
    | none =>
      rcases ih (fun p hp => hs p (mem_cons_of_mem _ hp)) with ⟨A, p', B, q, h₁, h₂, h₃⟩ |
        ⟨h₁, h₂⟩
      · exact .inl ⟨p :: A, p', B, q, by simp [h₁], by simp [findPage, hr, h₂], h₃⟩
      · exact .inr ⟨by simp [findPage, hr, h₁], forall_mem_cons.mpr ⟨hr, h₂⟩⟩

theorem exists_place {pages : List Page}
    (hsort : pages.Pairwise (fun p q => p.range.stop ≤ q.addr))
    (hap : ∀ p ∈ pages, p.range.Apart ⟨addr, size⟩) :
    ∃ A B, pages = A ++ B ∧ (∀ p ∈ A, p.range.stop ≤ addr) ∧ ∀ p ∈ B,
      addr + size ≤ p.addr := by
  refine split_of_pairwise hsort hap fun p _ q _ hpq hge => ?_
  simp only [Page.range, stop] at hpq
  omega

theorem insertPos_eq (hA : ∀ p ∈ A, p.addr < addr) (hB : ∀ p ∈ B, addr < p.addr) :
    insertPos addr (A ++ B) = A.length := by
  have htake : (B.takeWhile (fun p => decide (p.addr < addr))) = [] := by
    cases B with
    | nil => rfl
    | cons b B =>
      have hb := hB b mem_cons_self
      rw [takeWhile_cons_of_neg]
      simp only [decide_eq_true_eq, not_lt]
      exact hb.le
  cases A with
  | nil =>
    cases B with
    | nil => rfl
    | cons b B =>
      have hb := hB b mem_cons_self
      simp [insertPos, hb]
  | cons a A =>
    have ha := hA a mem_cons_self
    have hA' : ∀ p ∈ A, decide (p.addr < addr) = true := by
      intro p hp
      simpa using hA p (mem_cons_of_mem a hp)
    simp [insertPos, Nat.not_lt.mpr ha.le, takeWhile_append_of_pos hA', htake]

theorem insertIdx_length_append (A B : List Page) (p : Page) :
    (A ++ B).insertIdx A.length p = A ++ p :: B := by
  induction A with
  | nil => simp
  | cons a A ih => simp [insertIdx_succ_cons, ih]

theorem flatMap_split (A B : List Page) (p : Page) :
    ((A ++ p :: B).flatMap Page.used) = A.flatMap Page.used ++ (p.used ++ B.flatMap Page.used) := by
  rw [flatMap_append, flatMap_cons]

section Pages
variable {p' : Page} {a : ℕ}

theorem Inv.replace (h : Inv Q s) (hs : s.pages = A ++ p :: B) (hw : p'.WellFormed)
    (hr : p'.range = p.range) (ha : p'.blockAlign = p.blockAlign) (hu : p'.used ≠ []) :
    Inv Q { s with pages := A ++ p' :: B, allocated := a } := by
  have hok := h.ok
  have hsort := h.sorted
  have haddr : p'.addr = p.addr := congrArg Span.addr hr
  rw [hs] at hok hsort
  refine ⟨h.blockPow, h.pagePow, ?_, ?_⟩
  · simp only [forall_mem_append, forall_mem_cons] at hok ⊢
    exact ⟨hok.1, ⟨hw, ha.trans hok.2.1.aligned, hu, hr ▸ hok.2.1.placed⟩, hok.2.2⟩
  · simp only [pairwise_append, pairwise_cons, forall_mem_cons] at hsort ⊢
    rw [hr, haddr]
    exact hsort

theorem Inv.remove (h : Inv Q s) (hs : s.pages = A ++ p :: B) :
    Inv Q { s with pages := A ++ B, allocated := a } := by
  have hsub : (A ++ B).Sublist s.pages := by
    rw [hs]
    exact (List.Sublist.refl A).append (sublist_cons_self p B)
  exact ⟨h.blockPow, h.pagePow, fun q hq => h.ok q (hsub.subset hq), h.sorted.sublist hsub⟩

theorem Inv.insert (h : Inv Q s) (hs : s.pages = A ++ B) (hp : PageOk Q s.blockAlign p)
    (hA : ∀ q ∈ A, q.range.stop ≤ p.addr) (hB : ∀ q ∈ B, p.range.stop ≤ q.addr) :
    Inv Q { s with pages := A ++ p :: B, allocated := a } := by
  have hok := h.ok
  have hsort := h.sorted
  rw [hs] at hok hsort
  refine ⟨h.blockPow, h.pagePow, ?_, ?_⟩
  · simp only [forall_mem_append, forall_mem_cons] at hok ⊢
    exact ⟨hok.1, hp, hok.2⟩
  · simp only [pairwise_append, pairwise_cons, forall_mem_cons] at hsort ⊢
    exact ⟨hsort.1, ⟨hB, hsort.2.1⟩, fun q hq => ⟨hA q hq, hsort.2.2 q hq⟩⟩

end Pages

theorem place_spec {q : Ptr} (h : Inv Q s) (hs : s.pages = A ++ p :: B)
    (hf : p.findFreeBlock n = some (some q)) (hn : 0 < n) (hd : s.blockAlign ∣ n) :
    ∃ s' b, s.place A.length q n = some (s', b.addr) ∧ Served Q s s' n b := by
  have hp := h.ok p (by simp [hs])
  have hg : Nat.gcd p.blockAlign p.size ∣ n := (Nat.gcd_dvd_left _ _).trans (hp.aligned ▸ hd)
  obtain ⟨p', b, blk, hp', hw, hu, hnb, hexact, hblk, hba, hr, ha⟩ :=
    hp.wellFormed.allocate hf hn hg
  have hin := hw.used_inside (b := b) (by rw [hu]; exact mem_cons_self)
  have hrange : p'.addr = p.addr ∧ p'.size = p.size := Span.mk.injEq .. ▸ hr
  refine ⟨{ s with pages := A ++ p' :: B, allocated := add64 s.allocated n }, b, ?_, ?_⟩
  · simp [place, hs, hp', hblk, hba]
  refine ⟨rfl, h.replace hs hw hr ha (by simp [hu]), ?_, hnb, ?_,
    ⟨p.range, hp.placed, ?_⟩, rfl⟩
  · rw [live, live, hs, flatMap_split, flatMap_split, hu, cons_append]
    exact perm_middle
  · intro hQ hdvd
    exact hexact (hp.aligned ▸ hQ _ hp.placed) (hp.aligned ▸ hdvd)
  · simp only [Page.range, stop] at hin ⊢
    omega

theorem placeNew_spec {pageSize : ℕ} (h : Inv Q s)
    (hap : ∀ p ∈ s.pages, p.range.Apart ⟨addr, pageSize⟩)
    (hq : Q ⟨addr, pageSize⟩) (hw : addr + pageSize < 2 ^ 64) (hn : 0 < n)
    (hle : n ≤ pageSize) (hg : Nat.gcd s.blockAlign pageSize ∣ n) :
    ∃ s' b, s.placeNew addr pageSize n = some (s', b.addr) ∧ Served Q s s' n b ∧
    addr ≤ b.addr ∧ b.stop ≤ addr + pageSize := by
  obtain ⟨A, B, hs, hA, hB⟩ := exists_place h.sorted hap
  have hpos : 0 < s.blockAlign := by
    obtain ⟨k, _, hk⟩ := h.blockPow
    rw [hk]
    exact Nat.two_pow_pos k
  have hpageSize : 0 < pageSize := by omega
  have hinsert : insertPos addr s.pages = A.length := by
    rw [hs]
    apply insertPos_eq
    · intro p hp
      have h₁ := hA p hp
      have h₂ := h.size_pos (p := p) (by simp [hs, hp])
      simp only [Page.range, stop] at h₁
      omega
    · intro p hp
      have h₁ := hB p hp
      omega
  have hnew := Page.WellFormed.new hpageSize hpos hw
  obtain ⟨q, hf⟩ := Page.WellFormed.findFreeBlock_new hpageSize hpos hw hle
  obtain ⟨p', b, blk, hp', hwf, hu, hnb, hexact, hblk, hba, hr, ha⟩ := hnew.allocate hf hn hg
  have hused : p'.used = [b] := by
    rw [hu, Holds.used_eq (holds_new hpageSize hpos hw)]
    rfl
  have hrange : p'.range = ⟨addr, pageSize⟩ := hr
  have hin := hwf.used_inside (b := b) (by rw [hu]; exact mem_cons_self)
  have haddr : p'.addr = addr := congrArg Span.addr hrange
  have hsize : p'.size = pageSize := congrArg Span.size hrange
  have hok : PageOk Q s.blockAlign p' := ⟨hwf, ha, by simp [hused], hrange ▸ hq⟩
  rw [haddr, hsize] at hin
  refine ⟨{ s with pages := A ++ p' :: B, allocated := add64 s.allocated n }, b, ?_, ?_, hin.1,
    hin.2.2⟩
  · have hget : (s.pages.insertIdx A.length (Page.new addr pageSize s.blockAlign)) =
        A ++ Page.new addr pageSize s.blockAlign :: B := by
      rw [hs, insertIdx_length_append]
    simp [placeNew, createPage, place, hinsert, hget, hf, hp', hblk, hba]
  · refine ⟨rfl, h.insert hs hok (by rw [haddr]; exact hA) ?_, ?_, hnb, ?_,
      ⟨_, hq, ?_⟩, rfl⟩
    · intro p hp
      rw [hrange]
      exact hB p hp
    · rw [live, live, hs, flatMap_split, hused, flatMap_append]
      exact perm_middle
    · intro hQ hdvd
      exact hexact (hQ _ hq) hdvd
    · simp only [stop] at hin ⊢
      omega

theorem Inv.bound (h : Inv Q s) (hp : p ∈ s.pages) : add64 p.addr p.size = p.addr + p.size :=
  add64_of_lt (h.ok p hp).wellFormed.bound

theorem apart_of_findOverlap (h : Inv Q s) (hw : addr + n < 2 ^ 64)
    (ho : findOverlap addr n s.pages = none) (hp : p ∈ s.pages) :
    p.range.Apart ⟨addr, n⟩ := by
  rw [findOverlap, map_eq_none_iff, find?_eq_none] at ho
  have hno := ho p hp
  rw [h.bound hp, add64_of_lt hw, decide_eq_true_eq] at hno
  simp only [Span.Apart, stop, Page.range]
  omega

theorem findGap_spec {limit e a : ℕ} {pages : List Page}
    (hsort : pages.Pairwise (fun p q => p.range.stop ≤ q.addr))
    (hbound : ∀ p ∈ pages, p.addr + p.size < 2 ^ 64) (hf : findGap n limit e pages = some a)
    (hw : a + n < 2 ^ 64) :
    (∀ p ∈ pages, p.range.Apart ⟨a, n⟩) ∧
    ((∀ p ∈ pages, e ≤ p.addr) → e ≤ a) := by
  induction pages generalizing e with
  | nil =>
    rw [findGap] at hf
    split at hf
    · cases hf
      exact ⟨by simp, fun _ => le_rfl⟩
    · simp at hf
  | cons p pages ih =>
    obtain ⟨hp, hrest⟩ := pairwise_cons.mp hsort
    have hpb := hbound p mem_cons_self
    rw [findGap, add64_of_lt hpb] at hf
    split at hf
    · rename_i hgap
      cases hf
      rw [add64_of_lt hw] at hgap
      refine ⟨forall_mem_cons.mpr ⟨.inr hgap, fun q hq => .inr ?_⟩, fun _ => le_rfl⟩
      have hpq := hp q hq
      simp only [Page.range, stop] at hpq ⊢
      omega
    · obtain ⟨hap, hge⟩ := ih hrest (fun q hq => hbound q (mem_cons_of_mem p hq)) hf
      have hpa : p.addr + p.size ≤ a := hge hp
      refine ⟨forall_mem_cons.mpr ⟨.inl hpa, hap⟩, fun hall => ?_⟩
      have hpe := hall p mem_cons_self
      omega

theorem apart_of_findNextAddress {a : ℕ} (h : Inv Q s) (hf : s.findNextAddress n = some a)
    (hw : a + n < 2 ^ 64) (hp : p ∈ s.pages) : p.range.Apart ⟨a, n⟩ := by
  unfold findNextAddress at hf
  split at hf
  · rename_i hnil
    simp [hnil] at hp
  · exact (findGap_spec h.sorted (fun q hq => (h.ok q hq).wellFormed.bound) hf hw).1 p hp

theorem reserve_spec (h : Inv Q s) (hround : size + s.pageAlign ≤ 2 ^ 64)
    (hw : addr + alignUp64 size s.pageAlign < 2 ^ 64)
    (hq : addr + alignUp64 size s.pageAlign ≤ s.limit →
      Q ⟨addr, alignUp64 size s.pageAlign⟩) :
    (∃ e, s.reserve addr size = some (s, .error e)) ∨
      ∃ s' b, s.reserve addr size = some (s', .ok none) ∧ 0 < size ∧
        addr + alignUp64 size s.pageAlign ≤ s.limit ∧
        Served Q s s' (alignUp64 size s.pageAlign) b ∧
        b = ⟨addr, alignUp64 size s.pageAlign⟩ := by
  unfold reserve
  by_cases hz : size = 0
  · exact .inl ⟨_, if_pos hz⟩
  obtain ⟨hle, _⟩ := alignUp64_pow h.pagePow hround
  have hend := add64_of_lt hw
  rw [if_neg hz, alignSize_eq h.pagePow, bind_eq_bind, bind_some]
  by_cases hlim : s.limit < add64 addr (alignUp64 size s.pageAlign)
  · exact .inl ⟨_, if_pos hlim⟩
  rw [if_neg hlim]
  rw [hend] at hlim
  cases ho : findOverlap addr (alignUp64 size s.pageAlign) s.pages with
  | some r => exact .inl ⟨_, rfl⟩
  | none =>
    obtain ⟨s', b, hs', hserved, hlo, hhi⟩ := placeNew_spec h
      (fun p hp => apart_of_findOverlap h hw ho hp) (hq (by omega)) hw (by omega) le_rfl
      (Nat.gcd_dvd_right _ _)
    obtain ⟨start, length⟩ := b
    have henough := hserved.enough
    simp only [stop] at hlo hhi henough
    refine .inr ⟨s', _, by simp [hs'], by omega, by omega, hserved, ?_⟩
    rw [Span.mk.injEq]
    omega

theorem allocate_spec (h : Inv Q s) (dest : Bool) (hround : size + s.blockAlign ≤ 2 ^ 64)
    (hnew : findPage (fun p => p.findFreeBlock (alignUp64 size s.blockAlign)) s.pages =
      some none → alignUp64 size s.blockAlign + s.pageAlign ≤ 2 ^ 64 ∧
      ∀ a, s.findNextAddress (alignUp64 (alignUp64 size s.blockAlign) s.pageAlign) = some a →
        a + alignUp64 (alignUp64 size s.blockAlign) s.pageAlign < 2 ^ 64 ∧
        Q ⟨a, alignUp64 (alignUp64 size s.blockAlign) s.pageAlign⟩) :
    (∃ e, s.allocate size dest = some (s, .error e)) ∨
      ∃ s' b, s.allocate size dest = some (s', .ok (some b.addr)) ∧ 0 < size ∧
        Served Q s s' (alignUp64 size s.blockAlign) b := by
  unfold allocate
  by_cases hz : size = 0 ∨ dest = false
  · exact .inl ⟨_, if_pos hz⟩
  obtain ⟨hle, hdvd⟩ := alignUp64_pow h.blockPow hround
  simp only [hz, if_false, alignSize_eq h.blockPow, alignSize_eq h.pagePow, bind_eq_bind, bind_some]
  rcases findPage_spec (fun p hp => (h.ok p hp).wellFormed.findFreeBlock
    (alignUp64 size s.blockAlign)) with ⟨A, p, B, q, hs, hfind, hf⟩ | ⟨hfind, _⟩
  · obtain ⟨s', b, hs', hserved⟩ := place_spec h hs hf (by omega) hdvd
    exact .inr ⟨s', b, by simp [hfind, hs'], by omega, hserved⟩
  obtain ⟨hround₂, haddr⟩ := hnew hfind
  obtain ⟨hle₂, _⟩ := alignUp64_pow h.pagePow hround₂
  rw [hfind]
  simp only [bind_some]
  cases ha : s.findNextAddress (alignUp64 (alignUp64 size s.blockAlign) s.pageAlign) with
  | none => exact .inl ⟨_, rfl⟩
  | some a =>
    obtain ⟨hw, hq⟩ := haddr a ha
    obtain ⟨s', b, hs', hserved, _⟩ := placeNew_spec h
      (fun p hp => apart_of_findNextAddress h ha hw hp) hq hw (by omega) hle₂
      ((Nat.gcd_dvd_left _ _).trans hdvd)
    exact .inr ⟨s', b, by simp [hs'], by omega, hserved⟩

theorem release_spec (h : Inv Q s) (addr : ℕ) :
    (s.release addr = some (s, .error (.addressNotFound addr)) ∧ ∀ b ∈ s.live,
      b.addr ≠ addr) ∨
      ∃ s' b, s.release addr = some (s', .ok none) ∧ b.addr = addr ∧ Freed Q s s' b := by
  unfold release
  rcases findPage_spec (fun p hp => (h.ok p hp).wellFormed.findUsedBlock addr) with
    ⟨A, p, B, q, hs, hfind, hf⟩ | ⟨hfind, hno⟩
  · right
    have hp := h.ok p (by simp [hs])
    obtain ⟨p', b, blk, X, Y, hp', hw, hu, hu', hb, hblk, hsize, hr, ha⟩ :=
      hp.wellFormed.release hf
    have hlive : s.live.Perm (b :: (A.flatMap Page.used ++ (X ++ Y ++ B.flatMap Page.used))) := by
      rw [live, hs, flatMap_split, hu, append_assoc, append_assoc,
        cons_append, ← append_assoc, ← append_assoc]
      exact perm_middle
    have hget : s.pages[A.length]? = some p := by simp [hs]
    have hset : s.pages.set A.length p' = A ++ p' :: B := by simp [hs]
    cases he : p'.empty with
    | true =>
      have hnil : p'.used = [] := hw.empty_iff.mp he
      have hpos : 0 < p'.size := by
        have hsz : p'.size = p.size := congrArg Span.size hr
        rw [hsz]
        exact h.size_pos (by simp [hs])
      have hdel : deletePage { s with pages := A ++ p' :: B } A.length =
          some { s with pages := A ++ B } := by
        simp [deletePage, hw.destroy hnil hpos, eraseIdx_append_of_length_le]
      refine ⟨{ s with pages := A ++ B, allocated := sub64 s.allocated b.size }, b, ?_, hb, rfl,
        h.remove hs, ?_, rfl⟩
      · simp [hfind, hget, hblk, hp', hset, he, hdel, hsize]
      · simp only [live, flatMap_append] at hlive ⊢
        rw [← hu', hnil] at hlive
        exact hlive
    | false =>
      have hne : p'.used ≠ [] := by
        intro hnil
        simp [hw.empty_iff.mpr hnil] at he
      refine ⟨{ s with pages := A ++ p' :: B, allocated := sub64 s.allocated b.size }, b, ?_,
        hb, rfl, h.replace hs hw hr ha hne, ?_, rfl⟩
      · simp [hfind, hget, hblk, hp', hset, he, hsize]
      · simp only [live, flatMap_split, hu'] at hlive ⊢
        exact hlive
  · refine .inl ⟨by simp [hfind], ?_⟩
    intro b hb
    obtain ⟨p, hp, hbp⟩ := mem_flatMap.mp hb
    exact (h.ok p hp).wellFormed.not_mem_of_findUsedBlock (hno p hp) hbp

end VortexGpu.MemAlloc

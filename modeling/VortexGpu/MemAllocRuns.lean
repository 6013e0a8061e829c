import VortexGpu.MemAllocSpec

/-!
# Runs of the allocator

Results about every finite sequence of calls: the representation invariant and that nothing leaks,
for sequences in which nothing wraps around, and that the ranges handed out stay inside the window
of the allocator. The last needs a condition on the calls, because the first page of an empty
allocator is created without a bound check and `reserve` checks the upper end only.
-/

namespace VortexGpu.MemAlloc
open IntrusiveList Word MemoryAllocator List Runs

variable {Q : Span → Prop} {s : MemoryAllocator} {g : Geometry}

theorem inv_new (hb : ∃ k < 32, g.blockAlign = 2 ^ k) (hp : ∃ k < 32, g.pageAlign = 2 ^ k) :
    Inv Q (new g) :=
  ⟨hb, hp, fun _ hp => absurd hp not_mem_nil, List.Pairwise.nil⟩

theorem Inv.live_apart (h : Inv Q s) : s.live.Pairwise Span.Apart := by
  rw [live, pairwise_flatMap]
  refine ⟨fun p hp => (h.ok p hp).wellFormed.used_apart, ?_⟩
  apply h.sorted.imp_of_mem
  intro p q hp hq hpq b hb c hc
  have hbin := (h.ok p hp).wellFormed.used_inside hb
  have hcin := (h.ok q hq).wellFormed.used_inside hc
  left
  simp only [Page.range, Span.stop] at hpq hbin hcin ⊢
  omega

theorem Inv.live_sum_lt (h : Inv Q s) : (s.live.map Span.size).sum < 2 ^ 64 := by
  have hin : ∀ b ∈ s.live, 0 ≤ b.addr ∧ b.stop ≤ 2 ^ 64 - 1 := by
    intro b hb
    obtain ⟨p, hp, hbp⟩ := mem_flatMap.mp hb
    have hin := (h.ok p hp).wellFormed.used_inside hbp
    have hbound := (h.ok p hp).wellFormed.bound
    omega
  have hle := Span.sum_size_le h.live_apart hin
  omega

structure MemoryAllocator.Represented (s : MemoryAllocator) : Prop where
  sorted : s.pages.Pairwise (fun p q => p.addr < q.addr)
  disjoint : s.pages.Pairwise (fun p q => p.range.Apart q.range)
  pages : ∀ p ∈ s.pages, ∃ used freeM freeS, p.Represents used freeM freeS ∧ used ≠ []
  allocated : s.allocated = (s.live.map Span.size).sum

/-- `release(addr)` removes exactly the block that starts at `addr`, or returns an
error and leaves the allocator as it is. -/
def MemoryAllocator.ReleasesExactly (s : MemoryAllocator) (addr : ℕ) : Prop :=
  (∃ s', ∃ b ∈ s.live, b.addr = addr ∧ s.release addr = some (s', .ok none) ∧
      s'.live.Perm (s.live.erase b)) ∨
    ((∀ b ∈ s.live, b.addr ≠ addr) ∧ ∃ e, s.release addr = some (s, .error e))

/-- Neither the rounded sizes nor the range of a page to be created wrap around. -/
def NoWrap (s : MemoryAllocator) : Call → Prop
  | .reserve addr size =>
    size + s.pageAlign ≤ 2 ^ 64 ∧ addr + alignUp64 size s.pageAlign < 2 ^ 64
  | .allocate size _ =>
    let n := alignUp64 size s.blockAlign
    let pageSize := alignUp64 n s.pageAlign
    size + s.blockAlign ≤ 2 ^ 64 ∧
      (findPage (fun p => p.findFreeBlock n) s.pages = some none →
        n + s.pageAlign ≤ 2 ^ 64 ∧ ∀ a ∈ s.findNextAddress pageSize, a + pageSize < 2 ^ 64)
  | .release _ => True

instance (s : MemoryAllocator) : (c : Call) → Decidable (NoWrap s c)
  | .reserve _ _ => inferInstanceAs (Decidable (_ ∧ _))
  | .allocate _ _ => inferInstanceAs (Decidable (_ ∧ (_ → _)))
  | .release _ => inferInstanceAs (Decidable True)

/-- What the accounting needs: every page is a multiple of the block alignment. -/
structure Accounted (g : Geometry) (s : MemoryAllocator) : Prop where
  geometry : s.toGeometry = g
  inv : Inv (fun r => g.blockAlign ∣ r.size) s
  allocated : s.allocated = (s.live.map Span.size).sum

theorem Accounted.served {s' : MemoryAllocator} {n : ℕ} {b : Span} (h : Accounted g s)
    (hs : Served (fun r => g.blockAlign ∣ r.size) s s' n b) (hd : g.blockAlign ∣ n) :
    Accounted g s' := by
  have hg : s.blockAlign = g.blockAlign := congrArg Geometry.blockAlign h.geometry
  have hsize : b.size = n := hs.exact (fun r hr => hg ▸ hr) (hg ▸ hd)
  have hsum : (s'.live.map Span.size).sum = n + (s.live.map Span.size).sum := by
    rw [(hs.live.map Span.size).sum_eq, map_cons, sum_cons, hsize]
  have hlt := hs.inv.live_sum_lt
  refine ⟨hs.geometry.trans h.geometry, hs.inv, ?_⟩
  rw [hs.allocated, h.allocated, hsum, add64_of_lt (by omega)]
  omega

theorem Accounted.freed {s' : MemoryAllocator} {b : Span} (h : Accounted g s)
    (hs : Freed (fun r => g.blockAlign ∣ r.size) s s' b) : Accounted g s' := by
  have hsum : (s.live.map Span.size).sum = b.size + (s'.live.map Span.size).sum := by
    rw [(hs.live.map Span.size).sum_eq, map_cons, sum_cons]
  have hlt := h.inv.live_sum_lt
  refine ⟨hs.geometry.trans h.geometry, hs.inv, ?_⟩
  rw [hs.allocated, h.allocated, sub64_of_le hlt (by omega)]
  omega

theorem Accounted.call (hd : g.blockAlign ∣ g.pageAlign) (c : Call) (h : Accounted g s)
    (hc : NoWrap s c) : ∃ s' r, call s c = some (s', r) ∧ Accounted g s' := by
  have hb : s.blockAlign = g.blockAlign := congrArg Geometry.blockAlign h.geometry
  have hp : s.pageAlign = g.pageAlign := congrArg Geometry.pageAlign h.geometry
  cases c with
  | reserve addr size =>
    obtain ⟨hround, hw⟩ := hc
    have hdvd : g.blockAlign ∣ alignUp64 size s.pageAlign :=
      (hp ▸ hd).trans (alignUp64_pow h.inv.pagePow hround).2
    rcases reserve_spec h.inv hround hw (fun _ => hdvd) with ⟨e, he⟩ |
      ⟨s', b, hs', _, _, hserved, _⟩
    · exact ⟨s, _, he, h⟩
    · exact ⟨s', _, hs', h.served hserved hdvd⟩
  | allocate size dest =>
    obtain ⟨hround, hnew⟩ := hc
    have hdvd : g.blockAlign ∣ alignUp64 size s.blockAlign :=
      hb ▸ (alignUp64_pow h.inv.blockPow hround).2
    rcases allocate_spec h.inv dest hround (by
      intro hnone
      obtain ⟨hround₂, hw⟩ := hnew hnone
      refine ⟨hround₂, fun a ha => ⟨hw a ha, ?_⟩⟩
      exact (hp ▸ hd).trans (alignUp64_pow h.inv.pagePow hround₂).2) with ⟨e, he⟩ |
      ⟨s', b, hs', _, hserved⟩
    · exact ⟨s, _, he, h⟩
    · exact ⟨s', _, hs', h.served hserved hdvd⟩
  | release addr =>
    rcases release_spec h.inv addr with ⟨he, _⟩ | ⟨s', b, hs', _, hfreed⟩
    · exact ⟨s, _, he, h⟩
    · exact ⟨s', _, hs', h.freed hfreed⟩

theorem Accounted.represented (h : Accounted g s) : s.Represented where
  sorted := by
    apply h.inv.sorted.imp_of_mem
    intro p q hp _ hpq
    have hpos := h.inv.size_pos hp
    simp only [Page.range, Span.stop] at hpq
    omega
  disjoint := h.inv.sorted.imp (fun hpq => Or.inl hpq)
  pages p hp := by
    obtain ⟨freeM, freeS, hr⟩ := (h.inv.ok p hp).wellFormed.represents
    exact ⟨p.used, freeM, freeS, hr, (h.inv.ok p hp).inUse⟩
  allocated := h.allocated

theorem Inv.releasesExactly (h : Inv Q s) (addr : ℕ) : s.ReleasesExactly addr := by
  rcases release_spec h addr with ⟨he, hno⟩ | ⟨s', b, hs', hb, hfreed⟩
  · exact Or.inr ⟨hno, _, he⟩
  · have hmem : b ∈ s.live := hfreed.live.mem_iff.mpr mem_cons_self
    refine Or.inl ⟨s', b, hmem, hb, hs', ?_⟩
    exact (cons_perm_iff_perm_erase.mp hfreed.live.symm).2

section Calls
variable (hb : ∃ k < 32, g.blockAlign = 2 ^ k) (hp : ∃ k < 32, g.pageAlign = 2 ^ k)
  (hd : g.blockAlign ∣ g.pageAlign) (calls : List Call)
  (hw : Runs.Along call NoWrap (new g) calls)
include hb hp hd hw

theorem calls_accounted :
    ∃ s results, run call (new g) calls = some (s, results) ∧ Accounted g s :=
  run_keeps (fun _ c hs hc => Accounted.call hd c hs hc) ⟨rfl, inv_new hb hp, rfl⟩ hw

/-- After every call of every sequence without wrap-around the lists represent the
blocks, live blocks do not overlap and `release` is exact. A sequence stands for
the state after its last call. -/
theorem calls_represented : ∃ s results, run call (new g) calls = some (s, results) ∧
      s.Represented ∧ s.live.Pairwise Span.Apart ∧ ∀ addr, s.ReleasesExactly addr := by
  obtain ⟨s, results, hrun, hs⟩ := calls_accounted hb hp hd calls hw
  exact ⟨s, results, hrun, hs.represented, hs.inv.live_apart, hs.inv.releasesExactly⟩

end Calls

/-- Two blocks, the first one released, a range reserved and the block that was
merged back handed out again. -/
theorem calls_represented_device : ∃ s results, run call (new ⟨0x10000, 0x10000000, 4096, 64⟩)
        [.allocate 100 true, .allocate 64 true, .release 0x10000, .reserve 0x20000 5000,
          .allocate 4000 true, .release 7] = some (s, results) ∧
      s.Represented ∧ s.live.Pairwise Span.Apart ∧ ∀ addr, s.ReleasesExactly addr :=
  calls_represented ⟨6, by decide, rfl⟩ ⟨12, by decide, rfl⟩ (by decide) _
    (by decide +kernel)

theorem Accounted.eq_new (h : Accounted g s) (hlive : s.live = []) : s = new g := by
  have hpages : s.pages = [] := eq_nil_iff_forall_not_mem.mpr fun p hp =>
    (h.inv.ok p hp).inUse (flatMap_eq_nil_iff.mp hlive p hp)
  have hallocated := h.allocated
  rw [hlive] at hallocated
  obtain ⟨geometry, pages, allocated⟩ := s
  cases h.geometry
  cases hpages
  cases hallocated
  rfl

theorem release_live (h : Accounted g s) {addrs : List ℕ}
    (hlive : addrs.Perm (s.live.map Span.addr)) :
    run call s (addrs.map .release) = some (new g, addrs.map fun _ => .ok none) := by
  induction addrs generalizing s with
  | nil => rw [← h.eq_new (map_eq_nil_iff.mp hlive.nil_eq.symm)]; rfl
  | cons addr addrs ih =>
    rcases release_spec h.inv addr with ⟨_, hno⟩ | ⟨s', b, hs', rfl, hfreed⟩
    · obtain ⟨b, hb, hba⟩ := mem_map.mp (hlive.subset mem_cons_self)
      exact absurd hba (hno b hb)
    · have hrest := (hlive.trans (hfreed.live.map Span.addr)).cons_inv
      have hcall : call s (.release b.addr) = some (s', .ok none) := hs'
      rw [map_cons, run_cons _ hcall, ih (h.freed hfreed) hrest]
      rfl

/-- Nothing leaks: after any calls without wrap-around, releasing the live blocks in any order gives
the allocator as it was built. -/
theorem calls_release_all (hb : ∃ k < 32, g.blockAlign = 2 ^ k)
    (hp : ∃ k < 32, g.pageAlign = 2 ^ k) (hd : g.blockAlign ∣ g.pageAlign) (calls : List Call)
    (hw : Runs.Along call NoWrap (new g) calls) :
    ∃ s results, run call (new g) calls = some (s, results) ∧
      ∀ addrs : List ℕ, addrs.Perm (s.live.map Span.addr) →
        run call s (addrs.map .release) = some (new g, addrs.map fun _ => .ok none) := by
  obtain ⟨s, results, hrun, hs⟩ := calls_accounted hb hp hd calls hw
  exact ⟨s, results, hrun, fun _ => release_live hs⟩

theorem calls_release_all_device : ∃ s results, run call (new ⟨0x10000, 0x10000000, 4096, 64⟩)
      [.allocate 100 true, .allocate 64 true, .reserve 0x20000 5000] = some (s, results) ∧
    ∀ addrs : List ℕ, addrs.Perm (s.live.map Span.addr) → run call s (addrs.map .release) =
      some (new ⟨0x10000, 0x10000000, 4096, 64⟩, addrs.map fun _ => .ok none) :=
  calls_release_all ⟨6, by decide, rfl⟩ ⟨12, by decide, rfl⟩ (by decide) _
    (by decide +kernel)

def Geometry.InWindow (g : Geometry) (addr size : ℕ) : Prop :=
  g.baseAddress ≤ addr ∧ addr + size ≤ g.baseAddress + g.capacity

instance (g : Geometry) (addr size : ℕ) : Decidable (g.InWindow addr size) :=
  inferInstanceAs (Decidable (_ ∧ _))

/-- A successful call stays inside the window, by the size the caller asked for. -/
def StaysInside (g : Geometry) : Call → Except Error (Option ℕ) → Prop
  | .reserve addr size, .ok _ => g.InWindow addr size
  | .allocate size _, .ok (some a) => g.InWindow a size
  | _, _ => True

instance (g : Geometry) : (c : Call) → (r : Except Error (Option ℕ)) →
    Decidable (StaysInside g c r)
  | .reserve _ _, .ok _ => inferInstanceAs (Decidable (Geometry.InWindow ..))
  | .allocate _ _, .ok (some _) => inferInstanceAs (Decidable (Geometry.InWindow ..))
  | .allocate _ _, .ok none => inferInstanceAs (Decidable True)
  | .release _, .ok _ => inferInstanceAs (Decidable True)
  | .reserve _ _, .error _ => inferInstanceAs (Decidable True)
  | .allocate _ _, .error _ => inferInstanceAs (Decidable True)
  | .release _, .error _ => inferInstanceAs (Decidable True)

/-- The condition on a call: nothing wraps around, a reservation starts inside the
window, and the first page of an empty allocator fits the capacity. -/
def Contained (s : MemoryAllocator) : Call → Prop
  | .reserve addr size => s.baseAddress ≤ addr ∧
    size + s.pageAlign ≤ 2 ^ 64 ∧ addr + alignUp64 size s.pageAlign < 2 ^ 64
  | .allocate size _ =>
    let n := alignUp64 size s.blockAlign
    let pageSize := alignUp64 n s.pageAlign
    size + s.blockAlign ≤ 2 ^ 64 ∧
      (findPage (fun p => p.findFreeBlock n) s.pages = some none →
        n + s.pageAlign ≤ 2 ^ 64 ∧ (s.pages = [] → pageSize ≤ s.capacity) ∧
        s.baseAddress + pageSize < 2 ^ 64 ∧ ∀ p ∈ s.pages,
        p.addr + p.size + pageSize < 2 ^ 64)
  | .release _ => True

instance (s : MemoryAllocator) : (c : Call) → Decidable (Contained s c)
  | .reserve _ _ => inferInstanceAs (Decidable (_ ∧ _))
  | .allocate _ _ => inferInstanceAs (Decidable (_ ∧ (_ → _)))
  | .release _ => inferInstanceAs (Decidable True)

def Geometry.Holding (g : Geometry) (r : Span) : Prop := g.InWindow r.addr r.size

theorem findGap_le {n limit e a : ℕ} {pages : List Page} (he : e + n < 2 ^ 64)
    (hbound : ∀ p ∈ pages, p.addr + p.size + n < 2 ^ 64)
    (hlim : ∀ p ∈ pages, p.addr ≤ limit)
    (hf : findGap n limit e pages = some a) : a + n ≤ limit := by
  induction pages generalizing e with
  | nil =>
    rw [findGap, add64_of_lt he] at hf
    split at hf
    · cases hf
      assumption
    · simp at hf
  | cons p pages ih =>
    have hp := hbound p mem_cons_self
    rw [findGap, add64_of_lt he, add64_of_lt (by omega : p.addr + p.size < 2 ^ 64)] at hf
    split at hf
    · cases hf
      have hle := hlim p mem_cons_self
      omega
    · exact ih hp (fun q hq => hbound q (mem_cons_of_mem p hq))
        (fun q hq => hlim q (mem_cons_of_mem p hq)) hf

theorem findNextAddress_inWindow {n a : ℕ} (h : Inv g.Holding s) (hg : s.toGeometry = g)
    (hcap : g.baseAddress + g.capacity < 2 ^ 64) (hempty : s.pages = [] → n ≤ s.capacity)
    (hbase : s.baseAddress + n < 2 ^ 64) (hends : ∀ p ∈ s.pages, p.addr + p.size + n < 2 ^ 64)
    (hf : s.findNextAddress n = some a) : a + n < 2 ^ 64 ∧ g.Holding ⟨a, n⟩ := by
  subst hg
  unfold findNextAddress at hf
  split at hf
  · rename_i hnil
    cases hf
    exact ⟨hbase, le_rfl, Nat.add_le_add_left (hempty hnil) _⟩
  have hlimit : s.limit = s.baseAddress + s.capacity := add64_of_lt hcap
  have hpage : ∀ p ∈ s.pages, s.baseAddress ≤ p.addr ∧ p.addr ≤ s.limit := by
    intro p hp
    have hh := (h.ok p hp).placed
    simp only [Geometry.Holding, Geometry.InWindow, Page.range] at hh
    omega
  have hle := findGap_le hbase hends (fun p hp => (hpage p hp).2) hf
  have hge := (findGap_spec h.sorted (fun p hp => (h.ok p hp).wellFormed.bound) hf (by omega)).2
    (fun p hp => (hpage p hp).1)
  exact ⟨by omega, hge, by simp only; omega⟩

theorem call_staysInside (hcap : g.baseAddress + g.capacity < 2 ^ 64) (c : Call)
    (h : s.toGeometry = g ∧ Inv g.Holding s) (hc : Contained s c) :
    ∃ s' r, call s c = some (s', r) ∧ (s'.toGeometry = g ∧ Inv g.Holding s') ∧
    StaysInside g c r := by
  obtain ⟨hg, hi⟩ := h
  have hlimit : s.limit = g.baseAddress + g.capacity := by
    rw [← hg]
    exact add64_of_lt (hg ▸ hcap)
  have hbase : s.baseAddress = g.baseAddress := congrArg Geometry.baseAddress hg
  cases c with
  | reserve addr size =>
    obtain ⟨hlow, hround, hw⟩ := hc
    have hle := (alignUp64_pow hi.pagePow hround).1
    rcases reserve_spec hi hround hw (fun hlim => ⟨hbase ▸ hlow, hlimit ▸ hlim⟩) with
      ⟨e, he⟩ | ⟨s', b, hs', _, hlim, hserved, _⟩
    · exact ⟨s, _, he, ⟨hg, hi⟩, trivial⟩
    · refine ⟨s', _, hs', ⟨hserved.geometry.trans hg, hserved.inv⟩, hbase ▸ hlow, ?_⟩
      omega
  | allocate size dest =>
    obtain ⟨hround, hnew⟩ := hc
    have hle := (alignUp64_pow hi.blockPow hround).1
    rcases allocate_spec hi dest hround (by
      intro hnone
      obtain ⟨hround₂, hempty, hfirst, hends⟩ := hnew hnone
      exact ⟨hround₂, fun _ => findNextAddress_inWindow hi hg hcap hempty hfirst hends⟩) with
      ⟨e, he⟩ | ⟨s', b, hs', _, hserved⟩
    · exact ⟨s, _, he, ⟨hg, hi⟩, trivial⟩
    refine ⟨s', _, hs', ⟨hserved.geometry.trans hg, hserved.inv⟩, ?_⟩
    obtain ⟨r, hr, hlo, hhi⟩ := hserved.inside
    have henough := hserved.enough
    obtain ⟨hr₁, hr₂⟩ := hr
    simp only [Span.stop] at hhi
    exact ⟨hr₁.trans hlo, by omega⟩
  | release addr =>
    rcases release_spec hi addr with ⟨he, _⟩ | ⟨s', b, hs', _, hfreed⟩
    · exact ⟨s, _, he, ⟨hg, hi⟩, trivial⟩
    · exact ⟨s', _, hs', ⟨hfreed.geometry.trans hg, hfreed.inv⟩, trivial⟩

theorem calls_stayInside (hb : ∃ k < 32, g.blockAlign = 2 ^ k)
    (hp : ∃ k < 32, g.pageAlign = 2 ^ k)
    (hcap : g.baseAddress + g.capacity < 2 ^ 64) (calls : List Call)
    (hc : Runs.Along call Contained (new g) calls) :
    ∃ s results, run call (new g) calls = some (s, results) ∧
      List.Forall₂ (StaysInside g) calls results := by
  obtain ⟨s, results, hrun, _, hall⟩ := run_invariant
    (fun s c hs hc => call_staysInside hcap c hs hc) ⟨rfl, inv_new hb hp⟩ hc
  exact ⟨s, results, hrun, hall⟩

theorem calls_stayInside_device : ∃ s results, run call (new ⟨0x10000, 0x4000, 4096, 64⟩)
        [.allocate 100 true, .reserve 0x12000 5000, .allocate 4096 true, .release 0x10000,
          .allocate 9000 true] = some (s, results) ∧
      List.Forall₂ (StaysInside ⟨0x10000, 0x4000, 4096, 64⟩)
        [.allocate 100 true, .reserve 0x12000 5000, .allocate 4096 true, .release 0x10000,
          .allocate 9000 true] results :=
  calls_stayInside ⟨6, by decide, rfl⟩ ⟨12, by decide, rfl⟩ (by decide) _
    (by decide +kernel)

/-- The first allocation of an allocator with one page of capacity: two pages are
handed out, and the second one lies behind the window. -/
theorem allocate_beyond_window : ¬ ∀ s results, run call (new ⟨0x10000, 4096, 4096, 64⟩)
        [.allocate 8192 true] = some (s, results) →
      List.Forall₂ (StaysInside ⟨0x10000, 4096, 4096, 64⟩) [.allocate 8192 true] results := by
  intro h
  have hrun : (run call (new ⟨0x10000, 4096, 4096, 64⟩)
      [.allocate 8192 true]).map Prod.snd = some [.ok (some 0x10000)] := by rfl
  obtain ⟨⟨s, results⟩, hs, hresults⟩ := Option.map_eq_some_iff.mp hrun
  have hall := h s results hs
  simp only at hresults
  subst hresults
  cases hall with
  | cons hin _ => exact absurd hin (by decide)

end VortexGpu.MemAlloc

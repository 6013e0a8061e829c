import VortexGpu.MemAllocPageSpec

/-!
# A page as its callers see it

The allocator never looks at the pointers of a page's lists. This module hides
them: a page is `WellFormed` when its lists hold for some pointers, and each
operation is described by what it does to the list of used blocks.
-/

namespace VortexGpu.MemAlloc
open IntrusiveList Word List

variable {p : Page} {U M S : List Ptr} {x n : ℕ}

def Page.WellFormed (p : Page) : Prop := ∃ U M S, Holds p U M S

def Page.used (p : Page) : List Span := p.usedBlocks.getD []

def Page.range (p : Page) : Span := ⟨p.addr, p.size⟩

/-- The representation invariant of one page, over the blocks met by walking its lists. -/
structure Page.Represents (p : Page) (used freeM freeS : List Span) : Prop where
  usedBlocks : p.usedBlocks = some used
  freeMBlocks : p.freeMBlocks = some freeM
  freeSBlocks : p.freeSBlocks = some freeS
  tile : Span.Partition (used ++ freeM) p.addr (p.addr + p.size)
  sortedM : freeM.Pairwise (fun b c => b.addr < c.addr ∧ b.stop ≠ c.addr)
  permS : freeS.Perm freeM
  sortedS : freeS.Pairwise (fun b c => c.size ≤ b.size)

theorem Holds.used_eq (h : Holds p U M S) : p.used = U.filterMap p.spans := by
  rw [Page.used, h.usedBlocks, Option.getD_some]

theorem Holds.represents (h : Holds p U M S) :
    p.Represents (U.filterMap p.spans) (M.filterMap p.spans) (S.filterMap p.spans) where
  usedBlocks := h.usedBlocks
  freeMBlocks := h.freeMBlocks
  freeSBlocks := h.freeSBlocks
  tile := by
    rw [← filterMap_append]
    apply h.layout.tiles.partition h.layout.nodup
    intro q
    rw [h.layout.live q, mem_append]
  sortedM := by
    rw [pairwise_filterMap]
    apply h.layout.sortedM.imp
    intro q r hqr b hb c hc
    have hlt := hqr b hb c hc
    simp only [Span.stop] at hlt ⊢
    omega
  permS := h.layout.perm.filterMap p.spans
  sortedS := by
    rw [pairwise_filterMap]
    apply h.layout.sortedS.imp
    intro q r hqr b hb c hc
    exact hqr b hb c hc

namespace Page.WellFormed

section
variable (h : p.WellFormed)
include h

theorem represents : ∃ freeM freeS, p.Represents p.used freeM freeS := by
  obtain ⟨U, M, S, h⟩ := h
  exact ⟨_, _, h.used_eq ▸ h.represents⟩

theorem bound : p.addr + p.size < 2 ^ 64 := by
  obtain ⟨U, M, S, h⟩ := h
  exact h.layout.bound

theorem used_inside {b : Span} (hb : b ∈ p.used) :
    p.addr ≤ b.addr ∧ 0 < b.size ∧ b.stop ≤ p.addr + p.size := by
  obtain ⟨U, M, S, h⟩ := h
  rw [h.used_eq] at hb
  obtain ⟨q, _, hq⟩ := mem_filterMap.mp hb
  exact h.layout.tiles.inside q b hq

theorem used_apart : p.used.Pairwise Span.Apart := by
  obtain ⟨_, _, hr⟩ := h.represents
  exact (pairwise_append.mp hr.tile.apart).1

theorem empty_iff : p.empty = true ↔ p.used = [] := by
  obtain ⟨U, M, S, h⟩ := h
  rw [h.empty_iff, h.used_eq]
  cases U with
  | nil => simp
  | cons q U =>
    obtain ⟨b, hb⟩ := h.layout.mem_isSome (Or.inl (by simp : q ∈ q :: U))
    rw [Page.shape_spans] at hb
    simp [hb]

end

theorem new {addr size blockAlign : ℕ} (hs : 0 < size) (ha : 0 < blockAlign)
    (hb : addr + size < 2 ^ 64) : (Page.new addr size blockAlign).WellFormed :=
  ⟨_, _, _, holds_new hs ha hb⟩

theorem findFreeBlock (h : p.WellFormed) (n : ℕ) : ∃ r, p.findFreeBlock n = some r := by
  obtain ⟨U, M, S, h⟩ := h
  rcases h.findFreeBlock n with ⟨t, _, ht, _⟩ | ⟨ht, _⟩
  all_goals exact ⟨_, ht⟩

theorem findUsedBlock (h : p.WellFormed) (x : ℕ) : ∃ r, p.findUsedBlock x = some r := by
  obtain ⟨U, M, S, h⟩ := h
  rcases h.findUsedBlock x with ⟨t, _, ht, _⟩ | ⟨ht, _⟩
  all_goals exact ⟨_, ht⟩

theorem not_mem_of_findUsedBlock (h : p.WellFormed) (hf : p.findUsedBlock x = some none) {b : Span}
    (hb : b ∈ p.used) : b.addr ≠ x := by
  obtain ⟨U, M, S, h⟩ := h
  rw [h.used_eq] at hb
  obtain ⟨q, hq, hqb⟩ := mem_filterMap.mp hb
  rcases h.findUsedBlock x with ⟨t, _, ht, _⟩ | ⟨_, hno⟩
  · simp [hf] at ht
  · exact hno q hq b hqb

theorem findFreeBlock_new {addr size blockAlign : ℕ} (hs : 0 < size) (ha : 0 < blockAlign)
    (hb : addr + size < 2 ^ 64) (hn : n ≤ size) :
    ∃ q, (Page.new addr size blockAlign).findFreeBlock n = some (some q) := by
  have h := holds_new hs ha hb
  rcases h.findFreeBlock n with ⟨t, _, ht, _⟩ | ⟨_, hno⟩
  · exact ⟨t, ht⟩
  · have hspan : (Page.new addr size blockAlign).spans 0 = some ⟨addr, size⟩ := by
      simp [Page.spans, Page.new, Block.span, Block.new]
    have hlt := hno 0 mem_cons_self _ hspan
    simp only at hlt
    omega

theorem allocate {q : Ptr} (h : p.WellFormed) (hf : p.findFreeBlock n = some (some q))
    (hn : 0 < n) (hg : Nat.gcd p.blockAlign p.size ∣ n) :
    ∃ p' b blk, p.allocate n q = some p' ∧ p'.WellFormed ∧ p'.used = b :: p.used ∧
    n ≤ b.size ∧
      (p.blockAlign ∣ p.size → p.blockAlign ∣ n → b.size = n) ∧ p'.blocks q = some blk ∧
      blk.addr = b.addr ∧ p'.range = p.range ∧ p'.blockAlign = p.blockAlign := by
  obtain ⟨U, M, S, h⟩ := h
  rcases h.findFreeBlock n with ⟨t, d, ht, htM, hd, hle⟩ | ⟨hnone, _⟩
  · obtain rfl : t = q := by
      rw [hf, Option.some.injEq, Option.some.injEq] at ht
      exact ht.symm
    obtain ⟨p', M', S', hp', hh, hkeep, hspan, ha, hs, hb⟩ := h.allocate htM hd hn hle hg
    obtain ⟨blk, hblk, hbspan⟩ := Page.blocks_of_spans hspan
    refine ⟨p', p.served d n, blk, hp', ⟨_, _, _, hh⟩, ?_, ?_, ?_, hblk,
      congrArg Span.addr hbspan, ?_, hb⟩
    · rw [hh.used_eq, h.used_eq, filterMap_cons_some hspan]
      congr 1
      exact filterMap_congr hkeep
    · simp only [Page.served]
      split <;> omega
    · intro hps hpn
      have hgcd : Nat.gcd p.blockAlign p.size = p.blockAlign := Nat.gcd_eq_left hps
      have hdvd := h.layout.grain t d hd
      have hdvd' : p.blockAlign ∣ d.size := hgcd ▸ hdvd
      simp only [Page.served]
      split
      · rfl
      · -- the rest is a multiple of the alignment and smaller than it
        have hrest := Nat.eq_zero_of_dvd_of_lt (Nat.dvd_sub hdvd' hpn) (by omega)
        omega
    · simp [Page.range, ha, hs]
  · simp [hf] at hnone

theorem release {q : Ptr} (h : p.WellFormed) (hf : p.findUsedBlock x = some (some q)) :
    ∃ p' b blk X Y, p.release q = some p' ∧ p'.WellFormed ∧ p.used = X ++ b :: Y ∧
      p'.used = X ++ Y ∧ b.addr = x ∧ p.blocks q = some blk ∧ blk.size = b.size ∧
      p'.range = p.range ∧ p'.blockAlign = p.blockAlign := by
  obtain ⟨U, M, S, h⟩ := h
  rcases h.findUsedBlock x with ⟨t, d, ht, htU, hd, hx⟩ | ⟨hnone, _⟩
  · obtain rfl : t = q := by
      rw [hf, Option.some.injEq, Option.some.injEq] at ht
      exact ht.symm
    obtain ⟨X, Y, rfl⟩ := append_of_mem htU
    obtain ⟨p', M', S', hp', hh, hkeep, ha, hs, hb⟩ := h.release
    obtain ⟨blk, hblk, hbspan⟩ := Page.blocks_of_spans hd
    refine ⟨p', d, blk, X.filterMap p.spans, Y.filterMap p.spans, hp', ⟨_, _, _, hh⟩, ?_, ?_,
      hx, hblk, congrArg Span.size hbspan, ?_, hb⟩
    · rw [h.used_eq, filterMap_append, filterMap_cons_some hd]
    · rw [hh.used_eq, filterMap_congr hkeep, filterMap_append]
    · simp [Page.range, ha, hs]
  · simp [hf] at hnone

theorem destroy (h : p.WellFormed) (hu : p.used = []) (hpos : 0 < p.size) :
    p.destroy = some () := by
  have hempty := h.empty_iff.mpr hu
  obtain ⟨U, M, S, h⟩ := h
  obtain rfl := h.empty_iff.mp hempty
  exact h.destroy hpos

end Page.WellFormed
end VortexGpu.MemAlloc

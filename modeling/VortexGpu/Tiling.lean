import Mathlib.Order.Interval.Finset.Nat
import Mathlib.Algebra.GroupWithZero.Nat

/-!
# Tilings of an interval by indexed spans

A family of spans, some of them absent, tiles `[lo, hi)` when the present spans are non-empty, lie
inside the interval, do not meet one another and leave no gap. Splitting one span in two and merging
two touching spans keep a tiling.
-/

structure Span where
  addr : ℕ
  size : ℕ
deriving DecidableEq, Repr

namespace Span
open Finset List

def stop (b : Span) : ℕ := b.addr + b.size

def Apart (b c : Span) : Prop := b.stop ≤ c.addr ∨ c.stop ≤ b.addr

instance (b c : Span) : Decidable (b.Apart c) := inferInstanceAs (Decidable (_ ∨ _))

theorem Apart.symm {b c : Span} (h : b.Apart c) : c.Apart b := Or.symm h

def covered (l : List Span) : Finset ℕ :=
  l.foldr (fun b t => Finset.Ico b.addr b.stop ∪ t) ∅

theorem mem_covered {l : List Span} {x : ℕ} : x ∈ covered l ↔ ∃ b ∈ l,
    b.addr ≤ x ∧ x < b.stop := by
  induction l with
  | nil => simp [covered]
  | cons b l ih =>
    have h : covered (b :: l) = Finset.Ico b.addr b.stop ∪ covered l := rfl
    rw [h, mem_union, mem_Ico, ih]
    simp

theorem card_covered {l : List Span} (h : l.Pairwise Apart) :
    (covered l).card = (l.map size).sum := by
  induction l with
  | nil => rfl
  | cons b l ih =>
    obtain ⟨hb, hl⟩ := List.pairwise_cons.mp h
    have hdis : Disjoint (Finset.Ico b.addr b.stop) (covered l) := by
      rw [Finset.disjoint_left]
      intro x hx hxl
      obtain ⟨c, hc, h₁, h₂⟩ := mem_covered.mp hxl
      obtain ⟨h₃, h₄⟩ := Finset.mem_Ico.mp hx
      rcases hb c hc with h₅ | h₅ <;> omega
    have hcons : covered (b :: l) = Finset.Ico b.addr b.stop ∪ covered l := rfl
    rw [hcons, Finset.card_union_of_disjoint hdis, Nat.card_Ico, ih hl, List.map_cons,
      List.sum_cons, stop, Nat.add_sub_cancel_left]

theorem sum_size_le {l : List Span} {lo hi : ℕ} (h : l.Pairwise Apart)
    (hin : ∀ b ∈ l, lo ≤ b.addr ∧ b.stop ≤ hi) : (l.map size).sum ≤ hi - lo := by
  rw [← card_covered h, ← Nat.card_Ico lo hi]
  apply card_le_card
  intro x hx
  obtain ⟨b, hb, h₁, h₂⟩ := mem_covered.mp hx
  have h₃ := hin b hb
  exact mem_Ico.mpr ⟨by omega, by omega⟩

/-- The listed spans are non-empty, do not meet and fill the interval. -/
structure Partition (l : List Span) (lo hi : ℕ) : Prop where
  inside : ∀ b ∈ l, lo ≤ b.addr ∧ 0 < b.size ∧ b.stop ≤ hi
  apart : l.Pairwise Apart
  cover : ∀ x, lo ≤ x → x < hi → ∃ b ∈ l, b.addr ≤ x ∧ x < b.stop

end Span

structure Tiles {ι : Type} (v : ι → Option Span) (lo hi : ℕ) : Prop where
  inside : ∀ i b, v i = some b → lo ≤ b.addr ∧ 0 < b.size ∧ b.stop ≤ hi
  apart : ∀ i j b c, v i = some b → v j = some c → i ≠ j → b.Apart c
  cover : ∀ x, lo ≤ x → x < hi → ∃ i b, v i = some b ∧ b.addr ≤ x ∧ x < b.stop

namespace Tiles
open Span
open Function (update update_of_ne update_self)

variable {ι : Type} {v : ι → Option Span} {lo hi : ℕ}

theorem partition (h : Tiles v lo hi) {l : List ι} (hnd : l.Nodup)
    (hl : ∀ i, (v i).isSome ↔ i ∈ l) : Partition (l.filterMap v) lo hi where
  inside b hb := by
    obtain ⟨i, _, hi⟩ := List.mem_filterMap.mp hb
    exact h.inside i b hi
  apart := by
    rw [List.pairwise_filterMap]
    apply hnd.imp
    intro i j hij b hb c hc
    exact h.apart i j b c hb hc hij
  cover x h₁ h₂ := by
    obtain ⟨i, b, hb, h₃, h₄⟩ := h.cover x h₁ h₂
    have hi : i ∈ l := (hl i).mp (by simp [hb])
    exact ⟨b, List.mem_filterMap.mpr ⟨i, hi, hb⟩, h₃, h₄⟩

variable [DecidableEq ι]

theorem single {i : ι} (h : lo < hi) :
    Tiles (update (fun _ => none) i (some ⟨lo, hi - lo⟩)) lo hi where
  inside j b hj := by
    by_cases hij : j = i
    · subst hij
      simp only [update_self] at hj
      cases hj
      simp only [stop]
      omega
    · simp [update_of_ne hij] at hj
  apart j k b c hj hk hjk := by
    by_cases hij : j = i
    · have hik : k ≠ i := fun hk => hjk (hij.trans hk.symm)
      simp [update_of_ne hik] at hk
    · simp [update_of_ne hij] at hj
  cover x h₁ h₂ := ⟨i, ⟨lo, hi - lo⟩, update_self .., h₁, by simp only [stop]; omega⟩

/-- The value at each index after a change at two of them, and where a present span comes from. -/
theorem update_pair (v : ι → Option Span) {i j : ι} (hij : i ≠ j) (x y : Option Span) :
    ∃ w, update (update v i x) j y = w ∧ w i = x ∧ w j = y ∧
    (∀ k, k ≠ i → k ≠ j → w k = v k) ∧
      ∀ k b, w k = some b → (k = i ∧ x = some b) ∨ (k = j ∧ y = some b) ∨
      (k ≠ i ∧ k ≠ j ∧ v k = some b) := by
  have hi : update (update v i x) j y i = x := by rw [update_of_ne hij, update_self]
  have hk : ∀ k, k ≠ i → k ≠ j → update (update v i x) j y k = v k := by
    intro k hki hkj
    rw [update_of_ne hkj, update_of_ne hki]
  have hj : update (update v i x) j y j = y := update_self ..
  refine ⟨_, rfl, hi, hj, hk, fun k b hb => ?_⟩
  by_cases hki : k = i
  · subst hki
    exact .inl ⟨rfl, hi.symm.trans hb⟩
  · by_cases hkj : k = j
    · subst hkj
      exact .inr (.inl ⟨rfl, hj.symm.trans hb⟩)
    · exact .inr (.inr ⟨hki, hkj, (hk k hki hkj).symm.trans hb⟩)

/-- Cutting the span at `i` after `n` bytes, the rest going to the fresh index `j`. -/
theorem split (h : Tiles v lo hi) {i j : ι} {b : Span} {n : ℕ} (hb : v i = some b)
    (hj : v j = none) (hn : 0 < n) (hnb : n < b.size) :
    Tiles (update (update v i (some ⟨b.addr, n⟩)) j (some ⟨b.addr + n, b.size - n⟩)) lo
      hi := by
  have hij : i ≠ j := by
    rintro rfl
    simp [hb] at hj
  have hbin := h.inside i b hb
  obtain ⟨w, hw, hvi, hvj, hvk, hold⟩ :=
    update_pair v hij (some ⟨b.addr, n⟩) (some ⟨b.addr + n, b.size - n⟩)
  rw [hw]
  simp only [Option.some.injEq, stop] at hbin hold
  refine ⟨?_, ?_, ?_⟩
  · intro k c hk
    rcases hold k c hk with ⟨_, rfl⟩ | ⟨_, rfl⟩ | ⟨_, _, hc⟩
    · simp only [stop]
      omega
    · simp only [stop]
      omega
    · exact h.inside k c hc
  · intro k l c d hk hl hkl
    rcases hold k c hk with ⟨rfl, rfl⟩ | ⟨rfl, rfl⟩ | ⟨hki, hkj, hc⟩ <;>
      rcases hold l d hl with ⟨rfl, rfl⟩ | ⟨rfl, rfl⟩ | ⟨hli, _, hd⟩
    · exact absurd rfl hkl
    · left
      simp only [stop]
      omega
    · have hap := h.apart k l b d hb hd (Ne.symm hli)
      simp only [Apart, stop] at hap ⊢
      omega
    · right
      simp only [stop]
      omega
    · exact absurd rfl hkl
    · have hap := h.apart i l b d hb hd (Ne.symm hli)
      simp only [Apart, stop] at hap ⊢
      omega
    · have hap := h.apart k l c b hc hb hki
      simp only [Apart, stop] at hap ⊢
      omega
    · have hap := h.apart k i c b hc hb hki
      simp only [Apart, stop] at hap ⊢
      omega
    · exact h.apart k l c d hc hd hkl
  · intro x h₁ h₂
    obtain ⟨k, c, hc, h₃, h₄⟩ := h.cover x h₁ h₂
    by_cases hki : k = i
    · subst hki
      cases hb.symm.trans hc
      simp only [stop] at h₄
      by_cases hx : x < b.addr + n
      · exact ⟨k, _, hvi, h₃, hx⟩
      · exact ⟨j, _, hvj, by simp only; omega, by simp only [stop]; omega⟩
    · have hkj : k ≠ j := by
        rintro rfl
        simp [hj] at hc
      exact ⟨k, c, (hvk k hki hkj).trans hc, h₃, h₄⟩

theorem merge (h : Tiles v lo hi) {i j : ι} {b c : Span} (hb : v i = some b) (hc : v j = some c)
    (hbc : b.stop = c.addr) :
    Tiles (update (update v i (some ⟨b.addr, b.size + c.size⟩)) j none) lo hi := by
  have hbin := h.inside i b hb
  have hcin := h.inside j c hc
  simp only [stop] at hbin hcin hbc
  have hij : i ≠ j := by
    rintro rfl
    cases hb.symm.trans hc
    omega
  obtain ⟨w, hw, hvi, -, hvk, hold⟩ :=
    update_pair v hij (some ⟨b.addr, b.size + c.size⟩) none
  rw [hw]
  simp only [Option.some.injEq, reduceCtorEq, and_false, false_or] at hold
  refine ⟨?_, ?_, ?_⟩
  · intro k d hk
    rcases hold k d hk with ⟨_, rfl⟩ | ⟨_, _, hd⟩
    · simp only [stop]
      omega
    · exact h.inside k d hd
  · intro k l d e hk hl hkl
    rcases hold k d hk with ⟨rfl, rfl⟩ | ⟨hki, hkj, hd⟩ <;>
      rcases hold l e hl with ⟨rfl, rfl⟩ | ⟨hli, hlj, he⟩
    · exact absurd rfl hkl
    · have h₁ := h.apart k l b e hb he (Ne.symm hli)
      have h₂ := h.apart j l c e hc he (Ne.symm hlj)
      have h₃ := h.inside l e he
      simp only [Apart, stop] at h₁ h₂ h₃ ⊢
      omega
    · have h₁ := h.apart k l d b hd hb hki
      have h₂ := h.apart k j d c hd hc hkj
      have h₃ := h.inside k d hd
      simp only [Apart, stop] at h₁ h₂ h₃ ⊢
      omega
    · exact h.apart k l d e hd he hkl
  · intro x h₁ h₂
    obtain ⟨k, d, hd, h₃, h₄⟩ := h.cover x h₁ h₂
    by_cases hki : k = i
    · subst hki
      cases hb.symm.trans hd
      simp only [stop] at h₄
      exact ⟨k, _, hvi, h₃, by simp only [stop]; omega⟩
    · by_cases hkj : k = j
      · subst hkj
        cases hc.symm.trans hd
        simp only [stop] at h₄
        exact ⟨i, _, hvi, by simp only; omega, by simp only [stop]; omega⟩
      · exact ⟨k, d, (hvk k hki hkj).trans hd, h₃, h₄⟩

end Tiles

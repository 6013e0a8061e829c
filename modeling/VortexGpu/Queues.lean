import Mathlib.Algebra.BigOperators.Group.Finset.Basic

/-!
# Families of queues

`SameOrder key` compares two sequences key by key: elements with different keys
may have overtaken each other, elements with one key may not. It is the order a
component keeps that passes some of its input on early. `total` counts what a
family of queues holds.
-/

namespace Queues
open List Finset Function

section Order
variable {α κ : Type} [DecidableEq κ] {key : α → κ} {l l' l₁ A B P : List α} {a : α}

def SameOrder (key : α → κ) (l l' : List α) : Prop :=
  ∀ v, l.filter (fun a => key a = v) = l'.filter (fun a => key a = v)

theorem SameOrder.trans (h : SameOrder key l l') (h' : SameOrder key l' l₁) :
    SameOrder key l l₁ :=
  fun v => (h v).trans (h' v)

theorem SameOrder.append (h : SameOrder key l l') (B : List α) :
    SameOrder key (l ++ B) (l' ++ B) := by
  intro v
  rw [filter_append, filter_append, h v]

theorem SameOrder.overtake (h : ∀ x ∈ P, key x ≠ key a) :
    SameOrder key (A ++ [a] ++ P ++ B) (A ++ P ++ a :: B) := by
  intro v
  by_cases hv : key a = v
  · have hP : P.filter (fun x => key x = v) = [] := by
      apply filter_eq_nil_iff.mpr
      intro x hx
      simpa [← hv] using h x hx
    simp [filter_append, hv, hP]
  · simp [filter_append, hv]

theorem SameOrder.perm (h : SameOrder key l l') : l.Perm l' := by
  classical
  apply perm_iff_count.mpr
  intro a
  have hl := count_filter (p := fun x => key x = key a) (a := a) (l := l) (by simp)
  have hl' := count_filter (p := fun x => key x = key a) (a := a) (l := l') (by simp)
  rw [← hl, ← hl', h (key a)]

theorem SameOrder.isPrefix (h : SameOrder key (A ++ B) l) (v : κ) :
    A.filter (fun a => key a = v) <+: l.filter (fun a => key a = v) := by
  rw [← h v, filter_append]
  exact prefix_append _ _

end Order

section Total
variable {α : Type} {Q : ℕ → List α} {n p : ℕ} {a : α} {rest : List α}

def total (n : ℕ) (Q : ℕ → List α) : ℕ := ∑ p ∈ Finset.range n, (Q p).length

theorem total_update (Q : ℕ → List α) (hp : p < n) (l : List α) :
    total n (update Q p l) + (Q p).length = total n Q + l.length := by
  have hmem : p ∈ Finset.range n := Finset.mem_range.mpr hp
  have hold := add_sum_erase (Finset.range n) (fun q => (Q q).length) hmem
  have hnew := add_sum_erase (Finset.range n) (fun q => (update Q p l q).length) hmem
  have hrest : ∑ q ∈ (Finset.range n).erase p, (update Q p l q).length =
      ∑ q ∈ (Finset.range n).erase p, (Q q).length := by
    apply sum_congr rfl
    intro q hq
    rw [update_of_ne (ne_of_mem_erase hq)]
  simp only [update_self] at hnew
  simp only [total]
  omega

theorem total_pop (hp : p < n) (h : Q p = a :: rest) :
    total n (update Q p (Q p).tail) + 1 = total n Q := by
  have hu := total_update Q hp (Q p).tail
  rw [h] at hu ⊢
  simp only [length_cons, tail_cons] at hu ⊢
  omega

theorem total_push (hp : p < n) (a : α) : total n (update Q p (Q p ++ [a])) = total n Q + 1 := by
  have hu := total_update Q hp (Q p ++ [a])
  simp only [length_append, length_singleton] at hu
  omega

theorem total_eq_zero : total n Q = 0 ↔ ∀ p < n, Q p = [] := by
  simp [total, Finset.sum_eq_zero_iff]

end Total
end Queues

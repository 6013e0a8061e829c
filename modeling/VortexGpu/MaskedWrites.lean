import VortexGpu.ByteMem
import Mathlib.Data.Nat.Bitwise

/-!
# Writes of blocks under a byte mask

A write replaces the bytes of one aligned block that its mask enables. Two writes that enable no
byte in common commute; two to one block are a single one under both masks. Steps of a fold may be
reordered as far as they commute.
-/

namespace ByteMem

variable {size a b p q : ℕ} {mem src src' : Mem}

def maskedWrite (size : ℕ) (mem : Mem) (addr mask : ℕ) (src : Mem) : Mem := fun x =>
  if x / size = addr / size ∧ mask.testBit (x % size) = true then src (x % size) else mem x

theorem maskedWrite_comm
    (h : a / size ≠ b / size ∨ ∀ i, ¬ (p.testBit i = true ∧ q.testBit i = true)) :
    maskedWrite size (maskedWrite size mem a p src) b q src' =
      maskedWrite size (maskedWrite size mem b q src') a p src := by
  funext x
  simp only [maskedWrite]
  by_cases hb : x / size = b / size ∧ q.testBit (x % size) = true
  · have ha : ¬ (x / size = a / size ∧ p.testBit (x % size) = true) := by
      rintro ⟨ha, hp⟩
      rcases h with hne | hdisj
      · exact hne (ha.symm.trans hb.1)
      · exact hdisj _ ⟨hp, hb.2⟩
    rw [if_pos hb, if_neg ha, if_pos hb]
  · rw [if_neg hb, if_neg hb]

theorem maskedWrite_merge (h : a / size = b / size) :
    maskedWrite size (maskedWrite size mem a p src) b q src' =
      maskedWrite size mem a (p ||| q) fun i => if q.testBit i = true then src' i else src i := by
  funext x
  simp only [maskedWrite, ← h, Nat.testBit_or, Bool.or_eq_true]
  by_cases hx : x / size = a / size
  · by_cases hq : q.testBit (x % size) = true
    all_goals simp [hx, hq]
  · simp [hx]

end ByteMem

namespace Folds

variable {σ α : Type} {f : σ → α → σ} {p q : α → Bool}

theorem foldl_after {a : α} {l : List α} (h : ∀ b ∈ l, ∀ s, f (f s a) b = f (f s b) a)
    (s : σ) : l.foldl f (f s a) = f (l.foldl f s) a := by
  induction l generalizing s with
  | nil => rfl
  | cons b l ih =>
    rw [List.foldl_cons, List.foldl_cons, h b (List.mem_cons_self ..),
      ih fun c hc => h c (List.mem_cons_of_mem _ hc)]

theorem foldl_filter_or {l : List α} (hdisj : ∀ a ∈ l, p a = true → q a = false)
    (hcomm : ∀ a ∈ l, ∀ b ∈ l, p a = true → q b = true → ∀ s,
      f (f s b) a = f (f s a) b) (s : σ) :
    (l.filter fun a => p a || q a).foldl f s = (l.filter q).foldl f ((l.filter p).foldl f s) := by
  induction l generalizing s with
  | nil => rfl
  | cons a l ih =>
    have hrest := ih (fun b hb => hdisj b (List.mem_cons_of_mem _ hb))
      (fun b hb c hc => hcomm b (List.mem_cons_of_mem _ hb) c (List.mem_cons_of_mem _ hc))
    by_cases hp : p a = true
    · have hq := hdisj a (List.mem_cons_self ..) hp
      simp only [List.filter_cons, hp, hq, Bool.true_or, if_true, Bool.false_eq_true, if_false,
        List.foldl_cons]
      exact hrest (f s a)
    by_cases hq : q a = true
    · simp only [List.filter_cons, hp, hq, Bool.or_true, if_true, Bool.false_eq_true, if_false,
        List.foldl_cons]
      rw [hrest, foldl_after]
      intro b hb s
      have hb' := List.mem_filter.mp hb
      exact hcomm b (List.mem_cons_of_mem _ hb'.1) a (List.mem_cons_self ..) hb'.2 hq s
    · rw [Bool.not_eq_true] at hp hq
      simp only [List.filter_cons, hp, hq, Bool.or_self, Bool.false_eq_true, if_false]
      exact hrest s

end Folds

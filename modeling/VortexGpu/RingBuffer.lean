import VortexGpu.ByteMem

/-!
# Ring buffers in byte memory

A ring of `n` slots of `width` bytes at `base`. The producer numbers the items
0, 1, 2, …; item `k` goes to slot `k % n`. `Holds` says that the items from `lo`
on, which the consumer has not taken yet, are still in their slots.
-/

namespace RingBuffer
open ByteMem Nat

variable {mem mem' : Mem} {base n width lo k j : ℕ} {items : List Mem} {x : Mem}

def slot (base n width k : ℕ) : ℕ := base + width * (k % n)

structure Holds (mem : Mem) (base n width lo : ℕ) (items : List Mem) : Prop where
  item : ∀ k x, lo ≤ k → items[k]? = some x → window mem (slot base n width k) width = x

theorem window_congr {a b : ℕ} (h : ∀ i < n, mem (a + i) = mem' (b + i)) :
    window mem a n = window mem' b n := by
  funext i
  unfold window
  split
  · rename_i hi
    exact h i hi
  · rfl

theorem slot_add_lt (base k : ℕ) {i : ℕ} (hn : 0 < n) (hi : i < width) :
    slot base n width k + i < base + width * n := by
  have hk : k % n + 1 ≤ n := mod_lt k hn
  have hmul := Nat.mul_le_mul_left width hk
  rw [mul_add, mul_one] at hmul
  unfold slot
  omega

theorem slot_ne {i i' : ℕ} (hjk : j < k) (hlt : k < j + n) (hi : i < width) (hi' : i' < width) :
    slot base n width j + i ≠ slot base n width k + i' := by
  have hmod : j % n ≠ k % n := by
    intro h
    have hzero := sub_mod_eq_zero_of_mod_eq h.symm
    rw [mod_eq_of_lt (by omega)] at hzero
    omega
  intro h
  have hdiv : (width * (j % n) + i) / width = (width * (k % n) + i') / width := by
    congr 1
    unfold slot at h
    omega
  rw [mul_add_div (by omega), mul_add_div (by omega), div_eq_of_lt hi, div_eq_of_lt hi'] at hdiv
  omega

namespace Holds

theorem congr (hn : 0 < n) (h : Holds mem base n width lo items)
    (heq : ∀ i < width * n, mem' (base + i) = mem (base + i)) :
    Holds mem' base n width lo items where
  item := by
    intro k x hk hx
    rw [← h.item k x hk hx]
    apply window_congr
    intro i hi
    have hlt := slot_add_lt base k hn hi
    unfold slot at hlt ⊢
    have hbyte := heq (width * (k % n) + i) (by omega)
    rwa [← add_assoc] at hbyte

section
variable (h : Holds mem base n width lo items)
include h

theorem poke {i : ℕ} {b : UInt8} (hi : i < width) (hfree : items.length < lo + n) :
    Holds (Function.update mem (slot base n width items.length + i) b) base n width lo items where
  item := by
    intro k x hk hx
    have hlt : k < items.length := (List.getElem?_eq_some_iff.mp hx).1
    rw [← h.item k x hk hx]
    apply window_congr
    intro i' hi'
    exact Function.update_of_ne (slot_ne hlt (by omega) hi' hi) _ _

theorem push
    (hx : window mem (slot base n width items.length) width = x) :
    Holds mem base n width lo (items ++ [x]) where
  item := by
    intro k y hk hy
    rcases lt_or_ge k items.length with hlt | hge
    · rw [List.getElem?_append_left hlt] at hy
      exact h.item k y hk hy
    · rw [List.getElem?_append_right hge, List.getElem?_singleton] at hy
      split at hy
      · cases hy
        rwa [show k = items.length by omega]
      · simp at hy

theorem mono (hle : lo ≤ k) : Holds mem base n width k items where
  item := fun j x hj hx => h.item j x (hle.trans hj) hx

end

end Holds

end RingBuffer

import Mathlib.Algebra.BigOperators.Group.List.Basic
import Mathlib.Algebra.Order.Ring.Int

/-!
# Block moves between memories

A block move copies a range of one memory to a range of the same or of another one, as if the whole
source was read before the first write. Consecutive moves amount to one when the ranges are apart.
Since a move looks at no data, what it does to every memory is seen in the memory whose cells hold
their own position: there a sequence of moves and a single move are compared.
-/

namespace BlockMoves
open List Prod

variable {β α γ : Type} [DecidableEq β]

def move (sb db : β) (src dst len : ℕ) (m : β → ℕ → α) : β → ℕ → α :=
  fun b x => if b = db ∧ dst ≤ x ∧ x < dst + len then m sb (src + (x - dst)) else m b x

def moves (sb db : β) : ℕ → ℕ → List ℕ → (β → ℕ → α) → β → ℕ → α
  | _, _, [], m => m
  | src, dst, n :: ns, m => moves sb db (src + n) (dst + n) ns (move sb db src dst n m)

def Apart (sb db : β) (src dst len : ℕ) : Prop :=
  sb ≠ db ∨ src + len ≤ dst ∨ dst + len ≤ src

variable {sb db : β} {src dst len : ℕ} {m : β → ℕ → α}

variable {x n : ℕ} {ns : List ℕ}

theorem move_inside (h : dst ≤ x) (h' : x < dst + len) :
    move sb db src dst len m db x = m sb (src + (x - dst)) := if_pos ⟨rfl, h, h'⟩

theorem move_outside {b : β} (h : ¬(b = db ∧ dst ≤ x ∧ x < dst + len)) :
    move sb db src dst len m b x = m b x := if_neg h

theorem move_zero : move sb db src dst 0 m = m := by
  funext b x
  exact move_outside fun h => by omega

theorem map_move (g : α → γ) :
    move sb db src dst len (fun b x => g (m b x)) = fun b x =>
      g (move sb db src dst len m b x) := by
  funext b x
  simp only [move]
  split <;> rfl

theorem move_append {k : ℕ} (h : Apart sb db src dst (k + n)) :
    move sb db (src + k) (dst + k) n (move sb db src dst k m) = move sb db src dst (k + n) m := by
  funext b x
  by_cases hb : b = db
  · subst hb
    by_cases hlater : dst + k ≤ x ∧ x < dst + k + n
    · rw [move_inside hlater.1 hlater.2, move_inside (by omega) (by omega), move_outside]
      · congr 1
        omega
      · -- the block read now was not written by the first move
        rintro ⟨rfl, hlo, hhi⟩
        rcases h with h | h | h
        · exact h rfl
        · omega
        · omega
    · rw [move_outside fun hx => hlater hx.2]
      by_cases hfirst : dst ≤ x ∧ x < dst + k
      · rw [move_inside hfirst.1 hfirst.2, move_inside hfirst.1 (by omega)]
      · rw [move_outside fun hx => hfirst hx.2, move_outside fun hx => by omega]
  · rw [move_outside fun hx => hb hx.1, move_outside fun hx => hb hx.1,
      move_outside fun hx => hb hx.1]

omit [DecidableEq β] in
theorem Apart.head {k : ℕ} (h : Apart sb db src dst (k + n)) :
    Apart sb db (src + k) (dst + k) n :=
  h.imp_right fun h => by omega

theorem map_moves (g : α → γ) (ns : List ℕ) :
    moves sb db src dst ns (fun b x => g (m b x)) = fun b x =>
      g (moves sb db src dst ns m b x) := by
  induction ns generalizing src dst m with
  | nil => rfl
  | cons n ns ih => rw [moves, map_move, ih, moves]

theorem moves_outside {b : β} (h : ¬(b = db ∧ dst ≤ x ∧ x < dst + ns.sum)) :
    moves sb db src dst ns m b x = m b x := by
  induction ns generalizing src dst m with
  | nil => rfl
  | cons n ns ih =>
    rw [sum_cons] at h
    rw [moves, ih fun hx => h ⟨hx.1, by omega, by omega⟩,
      move_outside fun hx => h ⟨hx.1, hx.2.1, by omega⟩]

theorem moves_first (h : 0 < n) : moves sb db src dst (n :: ns) m db dst = m sb src := by
  rw [moves, moves_outside fun hx => by omega, move_inside le_rfl (by omega), Nat.sub_self,
    add_zero]

theorem moves_eq_move (h : Apart sb db src dst ns.sum) :
    moves sb db src dst ns m = move sb db src dst ns.sum m := by
  induction ns generalizing src dst m with
  | nil => exact move_zero.symm
  | cons n ns ih =>
    rw [sum_cons] at h ⊢
    rw [moves, ih h.head, move_append h]

theorem moves_lower (μ : β × ℕ → ℤ) {m : β → ℕ → β × ℕ}
    (hdown : ∀ k < ns.sum, μ (sb, src + k) < μ (db, dst + k))
    (hm : ∀ b x, μ (m b x) ≤ μ (b, x))
    (hlo : dst ≤ x) (hhi : x < dst + ns.sum) :
    μ (moves sb db src dst ns m db x) < μ (db, x) := by
  induction ns generalizing src dst m with
  | nil => exact absurd hhi (by simp only [sum_nil]; omega)
  | cons n ns ih =>
    rw [sum_cons] at hdown hhi
    have hin : ∀ y, dst ≤ y → y < dst + n →
        μ (move sb db src dst n m db y) < μ (db, y) := by
      intro y hy hy'
      rw [move_inside hy hy']
      have hlt := hdown (y - dst) (by omega)
      rw [Nat.add_sub_cancel' hy] at hlt
      exact (hm sb _).trans_lt hlt
    rw [moves]
    by_cases hx : x < dst + n
    · rw [moves_outside fun h => by omega]
      exact hin x hlo hx
    refine ih (fun k hk => ?_) (fun b y => ?_) (by omega) (by omega)
    · rw [add_assoc, add_assoc]
      exact hdown (n + k) (by omega)
    · by_cases hy : b = db ∧ dst ≤ y ∧ y < dst + n
      · rw [hy.1]
        exact (hin y hy.2.1 hy.2.2).le
      · rw [move_outside hy]
        exact hm b y

theorem exists_measure (h : sb ≠ db ∨ src ≠ dst) :
    ∃ μ : β × ℕ → ℤ, ∀ k, μ (sb, src + k) < μ (db, dst + k) := by
  by_cases hb : sb = db
  · subst hb
    rcases Nat.lt_or_gt_of_ne (h.resolve_left fun h => h rfl) with hlt | hlt
    · exact ⟨fun p => p.2, fun k => by simp only; omega⟩
    · exact ⟨fun p => -p.2, fun k => by simp only; omega⟩
  · refine ⟨fun p => if p.1 = sb then 0 else 1, fun k => ?_⟩
    simp [Ne.symm hb]

theorem moves_position_ne (h : sb ≠ db ∨ src ≠ dst) (hlo : dst ≤ x)
    (hhi : x < dst + ns.sum) : moves sb db src dst ns mk db x ≠ (db, x) := by
  obtain ⟨μ, hμ⟩ := exists_measure h
  intro heq
  have hlt := moves_lower μ (m := mk) (fun k _ => hμ k) (fun b x => le_refl (μ (b, x))) hlo hhi
  rw [heq] at hlt
  exact lt_irrefl _ hlt

theorem moves_self : moves sb sb src src ns m = m := by
  induction ns generalizing src with
  | nil => rfl
  | cons n ns ih =>
    have hmove : move sb sb src src n m = m := by
      funext b x
      by_cases hx : b = sb ∧ src ≤ x ∧ x < src + n
      · rw [hx.1, move_inside hx.2.1 hx.2.2, Nat.add_sub_cancel' hx.2.1]
      · exact move_outside hx
    rw [moves, hmove, ih]

theorem position_eq_of_forall [Nontrivial α] {src' dst' : ℕ}
    (h : ∀ m : β → ℕ → α, moves sb db src dst ns m = move sb db src' dst' len m) (b : β)
    (x : ℕ) : moves sb db src dst ns mk b x = move sb db src' dst' len mk b x := by
  obtain ⟨u, v, huv⟩ := exists_pair_ne α
  by_contra hne
  let g : β × ℕ → α := fun p => if p = move sb db src' dst' len mk b x then u else v
  have hg := congrFun (congrFun (h fun b x => g (b, x)) b) x
  rw [map_moves g (m := mk), map_move g (m := mk)] at hg
  exact huv ((if_pos rfl).symm.trans (hg.symm.trans (if_neg hne)))

/-- A sequence of moves does the work of one move on every memory only if it moves just that range.
-/
theorem moves_exact_iff [Nontrivial α] {src' dst' : ℕ} (hns : ∀ n ∈ ns, 0 < n)
    (hlen : 0 < len) (hapart : Apart sb db src dst len) :
    (∀ m : β → ℕ → α, moves sb db src' dst' ns m = move sb db src dst len m) ↔
      src' = src ∧ dst' = dst ∧ ns.sum = len := by
  constructor
  · intro h
    have hpos := position_eq_of_forall h
    have hmoved : ∀ x, dst ≤ x → x < dst + len →
        move sb db src dst len mk db x ≠ (db, x) := by
      intro x hlo hhi heq
      rw [move_inside hlo hhi] at heq
      obtain ⟨rfl, hx⟩ := mk.inj heq
      rcases hapart with h | h | h
      · exact h rfl
      · omega
      · omega
    have hinside : ∀ x, dst ≤ x → x < dst + len → dst' ≤ x ∧ x < dst' + ns.sum := by
      intro x hlo hhi
      by_contra hout
      refine hmoved x hlo hhi ?_
      rw [← hpos db x, moves_outside fun hx => hout hx.2]
    have hdistinct : sb ≠ db ∨ src' ≠ dst' := by
      by_contra hsame
      obtain ⟨rfl, rfl⟩ := not_or.mp hsame |>.imp not_not.mp not_not.mp
      refine hmoved dst le_rfl (by omega) ?_
      rw [← hpos sb dst, moves_self]
    have hwithin : ∀ x, dst' ≤ x → x < dst' + ns.sum → dst ≤ x ∧ x < dst + len := by
      intro x hlo hhi
      by_contra hout
      refine moves_position_ne hdistinct hlo hhi ?_
      rw [hpos db x, move_outside fun hx => hout hx.2]
    have hfirst := hinside dst le_rfl (by omega)
    have hlast := hinside (dst + len - 1) (by omega) (by omega)
    have hfirst' := hwithin dst' le_rfl (by omega)
    have hlast' := hwithin (dst' + ns.sum - 1) (by omega) (by omega)
    have hdst : dst' = dst := by omega
    refine ⟨?_, hdst, by omega⟩
    cases ns with
    | nil => exact absurd hfirst.2 (by simp only [sum_nil]; omega)
    | cons n ns =>
      have hsrc := hpos db dst
      rw [← hdst, moves_first (hns n (mem_cons_self ..)), hdst, move_inside le_rfl (by omega),
        Nat.sub_self, add_zero] at hsrc
      exact (mk.inj hsrc).2
  · rintro ⟨rfl, rfl, rfl⟩ m
    exact moves_eq_move hapart

end BlockMoves

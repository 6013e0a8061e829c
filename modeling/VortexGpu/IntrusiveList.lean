import Mathlib.Data.List.Nodup
import Mathlib.Data.List.Perm.Subperm

/-!
# Intrusive doubly linked lists over a store of nodes

A store maps pointers to nodes; `none` is a pointer that was never handed out or whose node was
deleted. A `LinkField` is one pair of link fields, so a node can sit on several lists at once. An
operation that would follow a pointer to no node has no result.

`Segment F s a l b` says that the nodes of `l` are chained through the fields `F`, from `a` to `b`.
`OnlyTouches` says what an operation may have changed.
-/

namespace IntrusiveList
open Function (update update_of_ne update_self)
open List Option

abbrev Ptr := ℕ
abbrev Store (N : Type) := Ptr → Option N

structure LinkField (N : Type) where
  next : N → Option Ptr
  prev : N → Option Ptr
  setNext : Option Ptr → N → N
  setPrev : Option Ptr → N → N
  next_setNext : ∀ v n, next (setNext v n) = v
  next_setPrev : ∀ v n, next (setPrev v n) = next n
  prev_setNext : ∀ v n, prev (setNext v n) = prev n
  prev_setPrev : ∀ v n, prev (setPrev v n) = v

attribute [simp] LinkField.next_setNext LinkField.next_setPrev LinkField.prev_setNext
  LinkField.prev_setPrev

variable {N : Type} {F : LinkField N} {s s' : Store N}

def modify (s : Store N) (p : Ptr) (f : N → N) : Option (Store N) :=
  (s p).map (fun n => update s p (some (f n)))

variable {p : Ptr} {n m : N} {a b head v : Option Ptr} {l A B : List Ptr} {fuel : ℕ}

theorem modify_eq (h : s p = some n) (f : N → N) :
    modify s p f = some (update s p (some (f n))) := by
  simp [modify, h]

/-- The nodes reachable from `n` by writing only the two links of `F`. -/
inductive Touch (F : LinkField N) (n : N) : N → Prop
  | refl : Touch F n n
  | next {m : N} (v : Option Ptr) : Touch F n m → Touch F n (F.setNext v m)
  | prev {m : N} (v : Option Ptr) : Touch F n m → Touch F n (F.setPrev v m)

theorem Touch.trans {k : N} (h : Touch F n m) (h' : Touch F m k) : Touch F n k := by
  induction h' with
  | refl => exact h
  | next v _ ih => exact ih.next v
  | prev v _ ih => exact ih.prev v

/-- An attribute of nodes that the links of `F` do not determine. -/
def Unlinked (F : LinkField N) {β : Type} (g : N → β) : Prop :=
  (∀ v n, g (F.setNext v n) = g n) ∧ ∀ v n, g (F.setPrev v n) = g n

theorem Touch.attr (h : Touch F n m) {β : Type} {g : N → β} (hg : Unlinked F g) :
    g m = g n := by
  induction h with
  | refl => rfl
  | next v _ ih => rw [hg.1, ih]
  | prev v _ ih => rw [hg.2, ih]

/-- `s'` has the nodes of `s`, changed at most in their `F` links. -/
def OnlyTouches (F : LinkField N) (s s' : Store N) : Prop :=
  ∀ q, Option.Rel (Touch F) (s q) (s' q)

theorem OnlyTouches.refl (s : Store N) : OnlyTouches F s s := by
  intro q
  cases s q with
  | none => exact .none
  | some n => exact .some .refl

theorem OnlyTouches.trans {s₁ s₂ s₃ : Store N} (h : OnlyTouches F s₁ s₂)
    (h' : OnlyTouches F s₂ s₃) : OnlyTouches F s₁ s₃ := by
  intro q
  have h₁ := h q
  have h₂ := h' q
  generalize s₁ q = a at h₁
  generalize s₂ q = b at h₁ h₂
  generalize s₃ q = c at h₂
  cases h₁ with
  | none => exact h₂
  | some t =>
    cases h₂ with
    | some t' => exact .some (t.trans t')

theorem OnlyTouches.update (h : s p = some n) (ht : Touch F n m) :
    OnlyTouches F s (update s p (some m)) := by
  intro q
  by_cases hq : q = p
  · subst hq
    rw [update_self, h]
    exact .some ht
  · rw [update_of_ne hq]
    exact OnlyTouches.refl s q

theorem OnlyTouches.attr (h : OnlyTouches F s s') {β : Type} {g : N → β} (q : Ptr)
    (hg : Unlinked F g := by exact ⟨fun _ _ => rfl, fun _ _ => rfl⟩) :
    (s' q).map g = (s q).map g := by
  have h₁ := h q
  generalize s q = a at h₁
  generalize s' q = b at h₁
  cases h₁ with
  | none => rfl
  | some t => simp [t.attr hg]

def Segment (F : LinkField N) (s : Store N) : Option Ptr → List Ptr → Option Ptr → Prop
  | _, [], _ => True
  | a, p :: l, b =>
    (∃ n, s p = some n ∧ F.prev n = a ∧ F.next n = l.head?.or b) ∧ Segment F s (some p) l b

/-- The list `l` hangs off the head pointer. -/
def Linked (F : LinkField N) (s : Store N) (head : Option Ptr) (l : List Ptr) : Prop :=
  head = l.head? ∧ Segment F s none l none

theorem getLast?_cons_or (p : Ptr) (l : List Ptr) (a : Option Ptr) :
    (p :: l).getLast?.or a = l.getLast?.or (some p) := by
  cases l with
  | nil => simp
  | cons q l => simp [getLast?_eq_some_getLast]

theorem head?_append_or (l₁ l₂ : List Ptr) (b : Option Ptr) :
    (l₁ ++ l₂).head?.or b = l₁.head?.or (l₂.head?.or b) := by
  cases l₁ <;> simp

theorem segment_append {l₁ l₂ : List Ptr} : Segment F s a (l₁ ++ l₂) b ↔
      Segment F s a l₁ (l₂.head?.or b) ∧ Segment F s (l₁.getLast?.or a) l₂ b := by
  induction l₁ generalizing a with
  | nil => simp [Segment]
  | cons p l₁ ih =>
    rw [getLast?_cons_or]
    simp only [cons_append, Segment, ih, head?_append_or, and_assoc]

theorem segment_cons : Segment F s a (p :: l) b ↔
      (∃ n, s p = some n ∧ F.prev n = a ∧ F.next n = l.head?.or b) ∧
        Segment F s (some p) l b := Iff.rfl

theorem segment_split {l₁ l₂ : List Ptr} : Segment F s a (l₁ ++ p :: l₂) b ↔
    Segment F s a l₁ (some p) ∧
      (∃ n, s p = some n ∧ F.prev n = l₁.getLast?.or a ∧ F.next n = l₂.head?.or b) ∧
      Segment F s (some p) l₂ b := by
  rw [segment_append, segment_cons]
  simp

/-- A chain depends on the links of its nodes only. -/
theorem segment_attr (hn : ∀ q ∈ l, (s' q).map F.next = (s q).map F.next)
    (hp : ∀ q ∈ l, (s' q).map F.prev = (s q).map F.prev) (hs : Segment F s a l b) :
    Segment F s' a l b := by
  induction l generalizing a with
  | nil => trivial
  | cons p l ih =>
    obtain ⟨⟨n, hsn, ha, hb⟩, hl⟩ := hs
    obtain ⟨hnp, hn⟩ := forall_mem_cons.mp hn
    obtain ⟨hpp, hp⟩ := forall_mem_cons.mp hp
    rw [hsn] at hnp hpp
    obtain ⟨m, hm, hmn⟩ := map_eq_some_iff.mp hnp
    rw [hm, map_some, map_some, Option.some.injEq] at hpp
    exact ⟨⟨m, hm, hpp.trans ha, hmn.trans hb⟩, ih hn hp hl⟩

theorem segment_congr (h : ∀ p ∈ l, s' p = s p) (hs : Segment F s a l b) : Segment F s' a l b :=
  segment_attr (fun p hp => by rw [h p hp]) (fun p hp => by rw [h p hp]) hs

theorem segment_update {x : Option N} (hp : p ∉ l) (hs : Segment F s a l b) :
    Segment F (update s p x) a l b :=
  segment_congr (fun _ hq => update_of_ne (ne_of_mem_of_not_mem hq hp) _ _) hs

theorem segment_isSome (hs : Segment F s a l b) (hp : p ∈ l) : ∃ n, s p = some n := by
  induction l generalizing a with
  | nil => simp at hp
  | cons q l ih =>
    rcases mem_cons.mp hp with rfl | hp
    · obtain ⟨n, hn, _⟩ := hs.1
      exact ⟨n, hn⟩
    · exact ih hs.2 hp

/-- Links of another field survive when that field's links are attributes untouched by `F`. -/
theorem Linked.of_onlyTouches {G : LinkField N} (hs : Linked G s head l) (h : OnlyTouches F s s')
    (hn : Unlinked F G.next := by exact ⟨fun _ _ => rfl, fun _ _ => rfl⟩)
    (hp : Unlinked F G.prev := by exact ⟨fun _ _ => rfl, fun _ _ => rfl⟩) :
    Linked G s' head l :=
  ⟨hs.1, segment_attr (fun q _ => h.attr q hn) (fun q _ => h.attr q hp) hs.2⟩

theorem Linked.update {x : Option N} (hs : Linked F s head l) (hp : p ∉ l) :
    Linked F (update s p x) head l :=
  ⟨hs.1, segment_update hp hs.2⟩

/-- `if (prev) prev->next = v; else head = v;` -/
def linkNext (F : LinkField N) (s : Store N) (head prev v : Option Ptr) :
    Option (Store N × Option Ptr) :=
  match prev with
  | some q => (modify s q (F.setNext v)).map (fun s => (s, head))
  | none => some (s, v)

/-- `if (next) next->prev = v;` -/
def linkPrev (F : LinkField N) (s : Store N) (next v : Option Ptr) : Option (Store N) :=
  match next with
  | some r => modify s r (F.setPrev v)
  | none => some s

theorem segment_setNext_last {q : Ptr} (hq : q ∉ l) (hs : Segment F s a (l ++ [q]) b) :
    ∃ n, s q = some n ∧ Segment F (update s q (some (F.setNext v n))) a (l ++ [q]) v := by
  obtain ⟨hl, ⟨n, hn, hprev, _⟩, _⟩ := segment_split.mp hs
  refine ⟨n, hn, segment_split.mpr ⟨?_, ⟨F.setNext v n, ?_, ?_, ?_⟩, trivial⟩⟩
  · exact segment_update hq hl
  · exact update_self _ _ _
  · rw [F.prev_setNext, hprev]
  · simp

theorem segment_setPrev_head {r : Ptr} (hr : r ∉ l) (hs : Segment F s a (r :: l) b) :
    ∃ n, s r = some n ∧ Segment F (update s r (some (F.setPrev v n))) v (r :: l) b := by
  obtain ⟨⟨n, hn, _, hnext⟩, hl⟩ := hs
  refine ⟨n, hn, ⟨F.setPrev v n, ?_, ?_, ?_⟩, ?_⟩
  · exact update_self _ _ _
  · exact F.prev_setPrev v n
  · rw [F.next_setPrev, hnext]
  · exact segment_update hr hl

theorem nodup_split (hnd : (A ++ p :: B).Nodup) :
    A.Nodup ∧ B.Nodup ∧ p ∉ A ∧ p ∉ B ∧ ∀ q ∈ A,
    q ∉ B := by
  obtain ⟨hndA, hndpB, hdis⟩ := nodup_append.mp hnd
  obtain ⟨hpB, hndB⟩ := nodup_cons.mp hndpB
  exact ⟨hndA, hndB, fun h => hdis p h p mem_cons_self rfl, hpB,
    fun q h h' => hdis q h q (mem_cons_of_mem p h') rfl⟩

theorem linkNext_spec (hnd : l.Nodup) (hs : Segment F s none l b) :
    ∃ s', linkNext F s (l.head?.or b) l.getLast? v = some (s', l.head?.or v) ∧
      Segment F s' none l v ∧ OnlyTouches F s s' ∧ ∀ q ∉ l, s' q = s q := by
  rcases eq_nil_or_concat l with rfl | ⟨l, q, rfl⟩
  · exact ⟨s, by simp [linkNext], trivial, .refl s, fun _ _ => rfl⟩
  simp only [concat_eq_append] at hnd hs ⊢
  obtain ⟨n, hn, hseg⟩ := segment_setNext_last (v := v) (nodup_split hnd).2.2.1 hs
  refine ⟨update s q (some (F.setNext v n)), ?_, hseg, .update hn (.next v .refl), ?_⟩
  · simp [linkNext, modify_eq hn]
  · intro r hr
    exact update_of_ne (by rintro rfl; simp at hr) _ _

theorem linkPrev_spec (hnd : l.Nodup) (hs : Segment F s a l none) :
    ∃ s', linkPrev F s l.head? v = some s' ∧ Segment F s' v l none ∧ OnlyTouches F s s' ∧
      ∀ q ∉ l, s' q = s q := by
  cases l with
  | nil => exact ⟨s, rfl, trivial, .refl s, fun _ _ => rfl⟩
  | cons r l =>
    obtain ⟨n, hn, hseg⟩ := segment_setPrev_head (v := v) (nodup_cons.mp hnd).1 hs
    refine ⟨update s r (some (F.setPrev v n)), by simp [linkPrev, modify_eq hn], hseg,
      .update hn (.prev v .refl), ?_⟩
    intro q hq
    exact update_of_ne (by rintro rfl; simp at hq) _ _

/-- The left neighbour is redirected first, then the right one. -/
theorem relink_spec {w : Option Ptr} (hndA : A.Nodup) (hndB : B.Nodup) (hAB : ∀ q ∈ A, q ∉ B)
    (hA : Segment F s none A a) (hB : Segment F s b B none) :
    ∃ s₁ s₂, linkNext F s (A.head?.or a) A.getLast? v = some (s₁, A.head?.or v) ∧
      linkPrev F s₁ B.head? w = some s₂ ∧ Segment F s₂ none A v ∧
      Segment F s₂ w B none ∧
      OnlyTouches F s s₂ ∧ (∀ q ∉ A, s₁ q = s q) ∧ ∀ q ∉ A, q ∉ B →
      s₂ q = s q := by
  obtain ⟨s₁, h₁, hA₁, ht₁, hf₁⟩ := linkNext_spec (v := v) hndA hA
  have hB₁ : Segment F s₁ b B none :=
    segment_congr (fun q hq => hf₁ q fun hqA => hAB q hqA hq) hB
  obtain ⟨s₂, h₂, hB₂, ht₂, hf₂⟩ := linkPrev_spec (v := w) hndB hB₁
  exact ⟨s₁, s₂, h₁, h₂, segment_congr (fun q hq => hf₂ q (hAB q hq)) hA₁, hB₂,
    ht₁.trans ht₂, hf₁, fun q hqA hqB => (hf₂ q hqB).trans (hf₁ q hqA)⟩

/-- Both neighbours are redirected around `p` and the links of `p` are cleared. -/
def remove (F : LinkField N) (s : Store N) (head : Option Ptr) (p : Ptr) :
    Option (Store N × Option Ptr) := do
  let n ← s p
  let (s, head) ← linkNext F s head (F.prev n) (F.next n)
  let n ← s p
  let s ← linkPrev F s (F.next n) (F.prev n)
  let s ← modify s p (fun n => F.setPrev none (F.setNext none n))
  some (s, head)

theorem remove_spec (hs : Linked F s head (A ++ p :: B)) (hnd : (A ++ p :: B).Nodup) :
    ∃ s' head', remove F s head p = some (s', head') ∧ Linked F s' head' (A ++ B) ∧
      OnlyTouches F s s' ∧ (∀ q ∉ A ++ p :: B, s' q = s q) ∧
      ∃ n, s' p = some n ∧ F.prev n = none := by
  obtain ⟨hhead, hseg⟩ := hs
  obtain ⟨hA, ⟨n, hn, hprev, hnext⟩, hB⟩ := segment_split.mp hseg
  obtain ⟨hndA, hndB, hpA, hpB, hAB⟩ := nodup_split hnd
  rw [or_none] at hprev hnext
  obtain ⟨s₁, s₂, h₁, h₂, hA₂, hB₂, ht, hf₁, hf₂⟩ :=
    relink_spec (v := B.head?) (w := A.getLast?) hndA hndB hAB hA hB
  have hn₁ : s₁ p = some n := (hf₁ p hpA).trans hn
  have hn₂ : s₂ p = some n := (hf₂ p hpA hpB).trans hn
  have hheadA : head = A.head?.or (some p) := by
    rw [hhead]
    cases A <;> simp
  refine ⟨update s₂ p (some (F.setPrev none (F.setNext none n))), A.head?.or B.head?,
    ?_, ⟨?_, segment_append.mpr ⟨?_, ?_⟩⟩, ?_, ?_, _, update_self .., by simp⟩
  · simp only [remove, hn, bind_eq_bind, bind_some, hprev, hnext]
    rw [hheadA, h₁]
    simp [hn₁, hprev, hnext, h₂, modify_eq hn₂]
  · cases A <;> simp
  · rw [or_none]
    exact segment_update hpA hA₂
  · rw [or_none]
    exact segment_update hpB hB₂
  · exact ht.trans (.update hn₂ (.prev none (.next none .refl)))
  · intro q hq
    simp only [mem_append, mem_cons, not_or] at hq
    rw [update_of_ne hq.2.1, hf₂ q hq.1 hq.2.2]

/-- `prev->next = p->next; if (prev->next) prev->next->prev = prev;`, the
detachment of the successor `p` of `prev` when `p` is about to be deleted. -/
def unlinkAfter (F : LinkField N) (s : Store N) (prev p : Ptr) : Option (Store N) := do
  let n ← s p
  let s ← modify s prev (F.setNext (F.next n))
  let m ← s prev
  linkPrev F s (F.next m) (some prev)

theorem unlinkAfter_spec {prev : Ptr}
    (hs : Linked F s head (A ++ prev :: p :: B)) (hnd : (A ++ prev :: p :: B).Nodup) :
    ∃ s', unlinkAfter F s prev p = some s' ∧ Linked F s' head (A ++ prev :: B) ∧
      OnlyTouches F s s' ∧ (∀ q ∉ A ++ prev :: p :: B, s' q = s q) ∧ s' p = s p := by
  obtain ⟨hhead, hseg⟩ := hs
  rw [show A ++ prev :: p :: B = (A ++ [prev]) ++ p :: B by simp] at hseg hnd
  obtain ⟨hA, ⟨n, hn, _, hnext⟩, hB⟩ := segment_split.mp hseg
  obtain ⟨hndA, hndB, hpA, hpB, hAB⟩ := nodup_split hnd
  rw [or_none] at hnext
  obtain ⟨m, hm, hA₁⟩ := segment_setNext_last (v := B.head?) (nodup_split hndA).2.2.1 hA
  obtain ⟨s₂, h₂, hB₂, ht₂, hf₂⟩ := linkPrev_spec (v := some prev) hndB
    (segment_update (x := some (F.setNext B.head? m)) (hAB prev (by simp)) hB)
  refine ⟨s₂, ?_, ⟨?_, segment_split.mpr ?_⟩, ?_, ?_, ?_⟩
  · simp [unlinkAfter, hn, hnext, modify_eq hm, h₂]
  · rw [hhead]
    cases A <;> simp
  · have hA₂ : Segment F s₂ none (A ++ [prev]) B.head? :=
      segment_congr (fun q hq => hf₂ q (hAB q hq)) hA₁
    obtain ⟨hAl, hmid, _⟩ := segment_split.mp hA₂
    exact ⟨hAl, by simpa using hmid, hB₂⟩
  · exact (OnlyTouches.update hm (.next _ .refl)).trans ht₂
  · intro q hq
    simp only [mem_append, mem_cons, not_or] at hq
    rw [hf₂ q hq.2.2.2, update_of_ne hq.2.1]
  · rw [hf₂ p hpB, update_of_ne (ne_of_mem_of_not_mem (by simp) hpA).symm]

def pushFront (F : LinkField N) (s : Store N) (head : Option Ptr) (p : Ptr) :
    Option (Store N × Option Ptr) := do
  let s ← modify s p (F.setNext head)
  let s ← linkPrev F s head (some p)
  some (s, some p)

theorem pushFront_spec
    (hs : Linked F s head l) (hnd : (p :: l).Nodup) (hn : s p = some n) (hprev : F.prev n = none) :
    ∃ s', pushFront F s head p = some (s', some p) ∧ Linked F s' (some p) (p :: l) ∧
      OnlyTouches F s s' ∧ ∀ q ∉ p :: l, s' q = s q := by
  obtain ⟨rfl, hseg⟩ := hs
  obtain ⟨hpl, hndl⟩ := nodup_cons.mp hnd
  obtain ⟨s₂, h₂, hl₂, ht₂, hf₂⟩ := linkPrev_spec (v := some p) hndl
    (segment_update (x := some (F.setNext l.head? n)) hpl hseg)
  refine ⟨s₂, by simp [pushFront, modify_eq hn, h₂],
    ⟨rfl, ⟨F.setNext l.head? n, ?_, ?_, ?_⟩, hl₂⟩,
    (OnlyTouches.update hn (.next _ .refl)).trans ht₂, ?_⟩
  · rw [hf₂ p hpl, update_self]
  · rw [F.prev_setNext, hprev]
  · simp
  · intro q hq
    rw [hf₂ q (not_mem_of_not_mem_cons hq), update_of_ne (ne_of_not_mem_cons hq)]

/-- `while (curr && before(curr)) { prev = curr; curr = curr->next; }` -/
def findPos (F : LinkField N) (s : Store N) (before : N → Bool) :
    ℕ → Option Ptr → Option Ptr → Option (Option Ptr × Option Ptr)
  | 0, _, _ => none
  | _ + 1, none, prev => some (prev, none)
  | fuel + 1, some c, prev => do
    let n ← s c
    if before n then findPos F s before fuel (F.next n) (some c) else some (prev, some c)

theorem findPos_spec {before : N → Bool}
    (hs : Segment F s a (A ++ B) none) (hA : ∀ q ∈ A, ∃ n, s q = some n ∧ before n = true)
    (hB : ∀ q ∈ B.head?, ∃ n, s q = some n ∧ before n = false) (hfuel : A.length < fuel) :
    findPos F s before fuel (A ++ B).head? a = some (A.getLast?.or a, B.head?) := by
  induction A generalizing a fuel with
  | nil =>
    obtain ⟨fuel, rfl⟩ := Nat.exists_eq_add_of_lt hfuel
    cases B with
    | nil => simp [findPos]
    | cons c B =>
      obtain ⟨n, hn, hbefore⟩ := hB c (by simp)
      simp [findPos, hn, hbefore]
  | cons c A ih =>
    obtain ⟨k, rfl⟩ := Nat.exists_eq_add_of_lt hfuel
    obtain ⟨⟨n, hn, _, hnext⟩, hrest⟩ := hs
    obtain ⟨⟨n', hn', hbefore⟩, hA⟩ := forall_mem_cons.mp hA
    cases hn.symm.trans hn'
    rw [or_none] at hnext
    have h := ih hrest hA (Nat.lt_of_succ_lt_succ hfuel)
    rw [getLast?_cons_or, ← h]
    change findPos F s before (_ + 1) (some c) a = _
    simp only [findPos, hn, bind_eq_bind, bind_some, hbefore, if_true, hnext]
    rfl

def insertBefore (F : LinkField N) (s : Store N) (head prev curr : Option Ptr) (p : Ptr) :
    Option (Store N × Option Ptr) := do
  let s ← modify s p (fun n => F.setPrev prev (F.setNext curr n))
  let (s, head) ← linkNext F s head prev (some p)
  let s ← linkPrev F s curr (some p)
  some (s, head)

theorem insertBefore_spec (hs : Linked F s head (A ++ B)) (hnd : (A ++ p :: B).Nodup)
    (hn : s p = some n) :
    ∃ s' head', insertBefore F s head A.getLast? B.head? p = some (s', head') ∧
      Linked F s' head' (A ++ p :: B) ∧ OnlyTouches F s s' ∧ ∀ q ∉ A ++ p :: B,
        s' q = s q := by
  obtain ⟨hhead, hseg⟩ := hs
  obtain ⟨hA, hB⟩ := segment_append.mp hseg
  rw [or_none] at hA hB
  obtain ⟨hndA, hndB, hpA, hpB, hAB⟩ := nodup_split hnd
  let m := F.setPrev A.getLast? (F.setNext B.head? n)
  obtain ⟨s₁, s₂, h₁, h₂, hA₂, hB₂, ht, -, hf₂⟩ :=
    relink_spec (v := some p) (w := some p) hndA hndB hAB
    (segment_update (x := some m) hpA hA) (segment_update hpB hB)
  have hheadA : head = A.head?.or B.head? := by
    rw [hhead]
    cases A <;> simp
  refine ⟨s₂, A.head?.or (some p), ?_,
    ⟨?_, segment_split.mpr ⟨hA₂, ⟨m, ?_, ?_, ?_⟩, hB₂⟩⟩, ?_, ?_⟩
  · simp only [insertBefore, modify_eq hn, bind_eq_bind, bind_some]
    change ((linkNext F (update s p (some m)) head A.getLast? (some p)).bind _) = _
    rw [hheadA, h₁, bind_some]
    simp [h₂]
  · cases A <;> simp
  · rw [hf₂ p hpA hpB, update_self]
  · simp [m]
  · simp [m]
  · exact (OnlyTouches.update hn (.prev _ (.next _ .refl))).trans ht
  · intro q hq
    simp only [mem_append, mem_cons, not_or] at hq
    rw [hf₂ q hq.1 hq.2.2, update_of_ne hq.2.1]

def insertSorted (F : LinkField N) (s : Store N) (before : N → Bool) (fuel : ℕ)
    (head : Option Ptr) (p : Ptr) : Option (Store N × Option Ptr) := do
  let (prev, curr) ← findPos F s before fuel head none
  insertBefore F s head prev curr p

theorem insertSorted_spec {before : N → Bool} (hs : Linked F s head (A ++ B))
    (hnd : (A ++ p :: B).Nodup)
    (hn : s p = some n) (hA : ∀ q ∈ A, ∃ n, s q = some n ∧ before n = true)
    (hB : ∀ q ∈ B.head?, ∃ n, s q = some n ∧ before n = false) (hfuel : A.length < fuel) :
    ∃ s' head', insertSorted F s before fuel head p = some (s', head') ∧
      Linked F s' head' (A ++ p :: B) ∧ OnlyTouches F s s' ∧ ∀ q ∉ A ++ p :: B,
        s' q = s q := by
  obtain ⟨s', head', h, hl, ht, hf⟩ := insertBefore_spec hs hnd hn
  refine ⟨s', head', ?_, hl, ht, hf⟩
  have hpos := findPos_spec hs.2 hA hB hfuel
  rw [← hs.1, or_none] at hpos
  simp [insertSorted, hpos, h]

def walk (F : LinkField N) (s : Store N) : ℕ → Option Ptr → Option (List Ptr)
  | 0, _ => none
  | _ + 1, none => some []
  | fuel + 1, some p => do
    let n ← s p
    let l ← walk F s fuel (F.next n)
    some (p :: l)

theorem walk_segment (hs : Segment F s a l none)
    (hfuel : l.length < fuel) : walk F s fuel l.head? = some l := by
  induction l generalizing a fuel with
  | nil =>
    obtain ⟨k, rfl⟩ := Nat.exists_eq_add_of_lt hfuel
    rfl
  | cons p l ih =>
    cases fuel with
    | zero => simp at hfuel
    | succ fuel =>
      obtain ⟨⟨n, hn, _, hnext⟩, hl⟩ := hs
      rw [or_none] at hnext
      have h := ih hl (by simpa using hfuel)
      simp [walk, hn, hnext, h]

theorem walk_spec (hs : Linked F s head l) (hfuel : l.length < fuel) :
    walk F s fuel head = some l := by
  obtain ⟨rfl, hseg⟩ := hs
  exact walk_segment hseg hfuel

theorem length_lt_of_lt {fresh : ℕ} (hnd : l.Nodup) (h : ∀ p ∈ l, p < fresh) :
    l.length < fresh + 1 := by
  have hsub : l ⊆ range fresh := fun p hp => mem_range.mpr (h p hp)
  have hlen := (subperm_of_subset hnd hsub).length_le
  rw [length_range] at hlen
  omega

end IntrusiveList

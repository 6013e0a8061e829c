import VortexGpu.CacheSets

/-!
# Miss-status holding registers

`Mshr` keeps the requests that wait for a sector. An entry is free, waits for the fill of its
sector (`core`) or is marked for replay (`replay`). A fill marks every entry of its sector;
marked entries leave in the order in which the bank admitted them.
-/

namespace VortexGpu.Cache
open List

structure MemFlags where
  strsp : Bool
  amoUnsigned : Bool
  deriving DecidableEq, Repr

inductive ReqType where
  | none | fill | replay | core | amoProbe
  deriving DecidableEq, Repr

structure BankReq where
  addr : ℕ
  hartId : ℕ
  reqTag : ℕ
  uuid : ℕ
  mshrId : ℕ
  type : ReqType
  write : Bool
  op : MemOp
  skipCoreRsp : Bool
  data : Option MemBlock
  byteen : ℕ
  flags : MemFlags
  admSeq : ℕ

def BankReq.reset : BankReq where
  addr := 0
  hartId := 0
  reqTag := 0
  uuid := 0
  mshrId := 0
  type := .none
  write := false
  op := .ld
  skipCoreRsp := false
  data := none
  byteen := 0
  flags := ⟨false, false⟩
  admSeq := 0

structure MshrEntry where
  bankReq : BankReq
  key : SectorKey
  seq : ℕ

/-- The entries with an index below the capacity are the registers. -/
structure Mshr where
  entries : ℕ → MshrEntry
  readyReqs : ℕ
  size : ℕ

namespace Mshr

variable (capacity : ℕ)

def reset : Mshr := ⟨fun _ => ⟨BankReq.reset, ⟨0, 0, 0⟩, 0⟩, 0, 0⟩

section
variable (m : Mshr)

def type (i : ℕ) : ReqType := (m.entries i).bankReq.type

def setType (i : ℕ) (t : ReqType) : ℕ → MshrEntry :=
  Function.update m.entries i
    { m.entries i with bankReq := { (m.entries i).bankReq with type := t } }

def full : Bool := decide (m.size = capacity)

def hasReadyReqs : Bool := decide (m.readyReqs ≠ 0)

def lookup (k : SectorKey) : Bool :=
  (range capacity).any fun i => decide (m.type i ≠ .none) && decide ((m.entries i).key = k)

def hasPendingFill (k : SectorKey) (exclude : Option ℕ) : Bool :=
  (range capacity).any fun i =>
    decide (exclude ≠ some i) && decide (m.type i = .core) && decide ((m.entries i).key = k)

def enqueue (req : BankReq) (k : SectorKey) : Option (Mshr × ℕ) :=
  if req.type ≠ .core then none
  else ((range capacity).find? fun i => decide (m.type i = .none)).map fun i =>
    ({ m with
      entries := Function.update m.entries i ⟨req, k, req.admSeq⟩, size := m.size + 1 }, i)

def waitsFor (k : SectorKey) (i : ℕ) : Bool :=
  decide (m.type i = .core) && decide ((m.entries i).key = k)

def replay (id : ℕ) : Option Mshr :=
  if m.type id ≠ .core then none
  else
    let marked := fun i => decide (i < capacity) && m.waitsFor (m.entries id).key i
    some { m with
      entries := fun i => if marked i then m.setType i .replay i else m.entries i
      readyReqs := m.readyReqs + (range capacity).countP marked }

def deferToReplay (id : ℕ) : Option Mshr :=
  if m.type id ≠ .core then none
  else some { m with entries := m.setType id .replay, readyReqs := m.readyReqs + 1 }

def nextReplay : Option ℕ :=
  (range capacity).foldl (fun picked i =>
    if m.type i ≠ .replay then picked
    else match picked with
      | none => some i
      | some p => if (m.entries i).seq < (m.entries p).seq then some i else some p) none

def dequeue : Option (Mshr × BankReq) :=
  if m.readyReqs = 0 then none
  else (m.nextReplay capacity).map fun i =>
    ({ m with entries := m.setType i .none, readyReqs := m.readyReqs - 1, size := m.size - 1 },
      (m.entries i).bankReq)

end

variable {capacity} {m m' : Mshr} {req : BankReq} {k : SectorKey} {i j : ℕ}

theorem enqueue_some (h : m.enqueue capacity req k = some (m', i)) :
    req.type = .core ∧ i < capacity ∧ m.type i = .none ∧
      m' = { m with
        entries := Function.update m.entries i ⟨req, k, req.admSeq⟩, size := m.size + 1 } := by
  simp only [enqueue] at h
  split_ifs at h with ht
  obtain ⟨i', hi', heq⟩ := Option.map_eq_some_iff.mp h
  obtain ⟨rfl, rfl⟩ := Prod.mk.injEq _ _ _ _ ▸ heq
  have hfree := find?_some hi'
  have hmem := mem_of_find?_eq_some hi'
  exact ⟨not_not.mp ht, mem_range.mp hmem, of_decide_eq_true hfree, rfl⟩

theorem replay_some (h : m.replay capacity i = some m') : m.type i = .core ∧ m' = { m with
      entries :=
  fun j => if j < capacity ∧ m.waitsFor (m.entries i).key j then m.setType j .replay j
        else m.entries j
      readyReqs := m.readyReqs + (range capacity).countP (m.waitsFor (m.entries i).key) } := by
  simp only [replay] at h
  split_ifs at h with ht
  refine ⟨not_not.mp ht, ?_⟩
  rw [← Option.some.inj h]
  simp only [Bool.and_eq_true, decide_eq_true_eq, mk.injEq, true_and, and_true, Nat.add_right_inj]
  apply countP_congr
  intro j hj
  simp [mem_range.mp hj]

theorem deferToReplay_some (h : m.deferToReplay i = some m') : m.type i = .core ∧
      m' = { m with entries := m.setType i .replay, readyReqs := m.readyReqs + 1 } := by
  simp only [deferToReplay] at h
  split_ifs at h with ht
  exact ⟨not_not.mp ht, (Option.some.inj h).symm⟩

theorem dequeue_some (h : m.dequeue capacity = some (m', req)) :
    ∃ i, m.nextReplay capacity = some i ∧ req = (m.entries i).bankReq ∧ m' = { m with
      entries := m.setType i .none, readyReqs := m.readyReqs - 1, size := m.size - 1 } := by
  simp only [dequeue] at h
  split_ifs at h with hr
  obtain ⟨i, hi, heq⟩ := Option.map_eq_some_iff.mp h
  obtain ⟨rfl, rfl⟩ := Prod.mk.injEq _ _ _ _ ▸ heq
  exact ⟨i, hi, rfl, rfl⟩

theorem nextReplay_spec (m : Mshr) (capacity : ℕ) : match m.nextReplay capacity with
    | none => ∀ j < capacity, m.type j ≠ .replay
    | some i => i < capacity ∧ m.type i = .replay ∧
        ∀ j < capacity, m.type j = .replay → (m.entries i).seq ≤ (m.entries j).seq := by
  induction capacity with
  | zero => simp [nextReplay]
  | succ n ih =>
    have hstep : m.nextReplay (n + 1) = (if m.type n ≠ .replay then m.nextReplay n
        else match m.nextReplay n with
          | none => some n
          | some p => if (m.entries n).seq < (m.entries p).seq then some n else some p) := by
      simp [nextReplay, range_succ]
    rw [hstep]
    by_cases ht : m.type n = .replay
    · rw [if_neg (not_not.mpr ht)]
      cases hp : m.nextReplay n with
      | none =>
        rw [hp] at ih
        refine ⟨Nat.lt_succ_self n, ht, ?_⟩
        intro j hj hjr
        rcases Nat.lt_succ_iff_lt_or_eq.mp hj with hlt | rfl
        · exact absurd hjr (ih j hlt)
        · exact le_rfl
      | some p =>
        rw [hp] at ih
        obtain ⟨hpn, hpr, hmin⟩ := ih
        simp only
        split_ifs with hlt
        · refine ⟨Nat.lt_succ_self n, ht, ?_⟩
          intro j hj hjr
          rcases Nat.lt_succ_iff_lt_or_eq.mp hj with hjn | rfl
          · exact hlt.le.trans (hmin j hjn hjr)
          · exact le_rfl
        · refine ⟨by omega, hpr, ?_⟩
          intro j hj hjr
          rcases Nat.lt_succ_iff_lt_or_eq.mp hj with hjn | rfl
          · exact hmin j hjn hjr
          · exact not_lt.mp hlt
    · rw [if_pos ht]
      cases hp : m.nextReplay n with
      | none =>
        rw [hp] at ih
        intro j hj hjr
        rcases Nat.lt_succ_iff_lt_or_eq.mp hj with hlt | rfl
        · exact ih j hlt hjr
        · exact ht hjr
      | some p =>
        rw [hp] at ih
        refine ⟨by omega, ih.2.1, ?_⟩
        intro j hj hjr
        rcases Nat.lt_succ_iff_lt_or_eq.mp hj with hlt | rfl
        · exact ih.2.2 j hlt hjr
        · exact absurd hjr ht

theorem nextReplay_some (h : m.nextReplay capacity = some i) :
    i < capacity ∧ m.type i = .replay ∧
      ∀ j < capacity, m.type j = .replay → (m.entries i).seq ≤ (m.entries j).seq := by
  have hs := m.nextReplay_spec capacity
  rwa [h] at hs

end Mshr

end VortexGpu.Cache

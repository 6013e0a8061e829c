import VortexGpu.RingSubmit

/-!
# Every line is fetched once, in order, as it was appended

`Allowed` is what the protocol needs and the code does not see to: a slot has been fetched when the
next line is copied into it, the batch flag is seen only by the thread whose batch it is, the tail
does not wrap, and nothing else writes to the ring.
-/

namespace VortexGpu.Runtime
open ByteMem Word Vm Cp Runs RingBuffer
open Function (update update_of_ne update_self)
open List

def copying : Pc → Bool
  | .copy _ _ _ _ => true
  | _ => false

theorem words_eq (x : ℕ) : (x >>> 32) * 2 ^ 32 + x % 2 ^ 32 = x := by
  rw [Nat.shiftRight_eq_div_pow]
  omega

theorem ringAddr_slot {q : Queue} {k : ℕ} (hlog : q.ringLog2 = 16)
    (hbase : q.ringBase + cpRingSize ≤ 2 ^ 64) :
    q.ringAddr (64 * k) = slot q.ringBase 1024 64 k := by
  have hmask : sub64 (shl64 1 16) 1 = 2 ^ 16 - 1 := by decide
  have hmod : 64 * k % 2 ^ 16 = 64 * (k % 1024) := by omega
  unfold Queue.ringAddr slot
  rw [hlog, hmask, Nat.and_two_pow_sub_one_eq_mod, hmod]
  apply add64_of_lt
  unfold cpRingSize at hbase
  omega

theorem ringOff_eq {s : Device} {n : ℕ} (h : s.host.tail = 64 * n) :
    s.ringOff = 64 * (n % 1024) ∧ s.ringOff + cpClBytes ≤ cpRingSize := by
  have hmask : cpRingSize - 1 = 2 ^ 16 - 1 := by decide
  have hoff : s.ringOff = 64 * (n % 1024) := by
    rw [Device.ringOff, hmask, Nat.and_two_pow_sub_one_eq_mod, h]
    omega
  refine ⟨hoff, ?_⟩
  rw [hoff]
  unfold cpClBytes cpRingSize
  omega

section
variable [VmBuild]

def Allowed (s : Device) : Action → Prop
  | .tick _ _ => ∀ r ∈ s.cp.stores,
      r.1 + r.2 ≤ s.cp.q0.ringBase ∨ s.cp.q0.ringBase + cpRingSize ≤ r.1
  | .poke addr _ => addr < s.cp.q0.ringBase ∨ s.cp.q0.ringBase + cpRingSize ≤ addr
  | .submit i _ => s.host.inBatch = true → s.host.owner = some i
  | .go i => copying (s.pc i) = true →
      s.host.tail < s.cp.q0.head + (if s.cp.clLoaded then cpClBytes else 0) + cpRingSize ∧
        s.host.tail + cpClBytes < 2 ^ 64
  | .batchBegin _ => True
  | .batchEnd _ => True

instance Allowed.decidable (s : Device) : ∀ a : Action, Decidable (Allowed s a)
  | .tick _ _ => inferInstanceAs (Decidable (∀ r ∈ s.cp.stores, _))
  | .poke _ _ => inferInstanceAs (Decidable (_ ∨ _))
  | .submit _ _ => inferInstanceAs (Decidable (_ → _))
  | .go _ => inferInstanceAs (Decidable (_ → _))
  | .batchBegin _ => .isTrue trivial
  | .batchEnd _ => .isTrue trivial

def critical : Pc → Bool
  | .idle => false
  | .beginWait => false
  | .submitWait _ => false
  | .pollWait _ => false
  | _ => true

def Device.lines (s : Device) : List Mem := linesOf s.cp.calls

structure Core (base : ℕ) (s : Device) : Prop where
  history : ∃ blocks cur, History s.cp blocks cur
  ringBase : s.cp.q0.ringBase = base
  ringLog2 : s.cp.q0.ringLog2 = 16
  tail : s.host.tail = 64 * s.appended.length
  small : s.host.tail < 2 ^ 64
  expected : s.host.expectedSeqnum = s.appended.length
  committed : ∃ c ≤ s.appended.length, s.cp.q0.tail = 64 * c
  taken : s.lines <+: s.appended
  holds : Holds s.cp.dram base 1024 64 s.lines.length s.appended
  quiet : s.host.owner = none → s.cp.q0.tail = s.host.tail

def Owned (s : Device) (m : Mode) : Prop := m = .single ∨ m = .batch ∧ s.host.inBatch = true

def Local (base : ℕ) (s : Device) : Pc → Prop
  | .batch => s.host.inBatch = true
  | .beginTarget => s.host.inBatch = true
  | .append m _ => Owned s m
  | .copy m cl off n =>
    Owned s m ∧ base + off = slot base 1024 64 s.appended.length ∧ n ≤ 64 ∧
      ∀ j < n, s.cp.dram (base + off + j) = cl j
  | .setTarget m => Owned s m
  | .tailHi _ => s.cp.q0.tailLoStaging = s.host.tail % 2 ^ 32
  | .unlock _ => s.cp.q0.tail = s.host.tail
  | .poll _ => s.cp.q0.tail = s.host.tail
  | _ => True

structure Safe (base : ℕ) (s : Device) : Prop where
  core : Core base s
  threads : ∀ i, critical (s.pc i) = true ↔ s.host.owner = some i
  locals : ∀ i, Local base s (s.pc i)

section Counting
variable {base : ℕ} {s : Device}

theorem Core.head_eq (h : Core base s) :
    s.cp.q0.head + (if s.cp.clLoaded then cpClBytes else 0) = 64 * s.lines.length := by
  obtain ⟨blocks, cur, hist⟩ := h.history
  have hlen := h.taken.length_le
  have hsmall := h.small
  rw [h.tail] at hsmall
  have hc := hist.consumed
  unfold Device.lines at hlen ⊢
  generalize linesOf s.cp.calls = ls at hc hlen ⊢
  generalize blocks.map Block.cmd = cs at hc
  cases hc with
  | between _ hl _ hhead =>
    rw [hl, hhead]
    simp only [Bool.false_eq_true, if_false]
    omega
  | inside ls hl hhead =>
    rw [hl, hhead]
    simp only [if_true, length_append, length_singleton, cpClBytes] at hlen ⊢
    omega

theorem Core.free (h : Core base s)
    (ha : s.host.tail < s.cp.q0.head + (if s.cp.clLoaded then cpClBytes else 0) + cpRingSize) :
    s.appended.length < s.lines.length + 1024 := by
  rw [h.head_eq, h.tail] at ha
  unfold cpRingSize at ha
  omega

end Counting

section Processor
variable {base : ℕ} {s : Device} {cp : CommandProcessor} {busy : Bool}
  {rsp : ℕ → ℕ → ℕ} {p : Pc}

omit [VmBuild] in
theorem Local.of_ring (h : Local base s p) (htail : cp.q0.tail = s.cp.q0.tail)
    (hlo : cp.q0.tailLoStaging = s.cp.q0.tailLoStaging)
    (hmem : ∀ i < cpRingSize, cp.dram (base + i) = s.cp.dram (base + i)) :
    Local base { s with cp := cp } p := by
  cases p with
  | copy m cl off n =>
    obtain ⟨hm, hoff, hn, hbytes⟩ := h
    refine ⟨hm, hoff, hn, ?_⟩
    intro j hj
    have hin : base + off + j < base + 64 * 1024 := by
      rw [hoff]
      exact slot_add_lt _ _ (by omega) (by omega)
    have hbyte := hmem (off + j) (by unfold cpRingSize; omega)
    rw [← add_assoc] at hbyte
    exact hbyte.trans (hbytes j hj)
  | tailHi _ => exact hlo.trans h
  | unlock _ | poll _ => exact htail.trans h
  | _ => exact h

theorem ring_outside {i : ℕ} (hi : i < cpRingSize) (hbase : s.cp.q0.ringBase = base)
    (ha : Allowed s (.tick busy rsp)) : Outside (base + i) s.cp.stores := by
  intro r hr
  have hclear := ha r hr
  rw [hbase] at hclear
  omega

theorem Core.fetches (h : Core base s) (hbase : base + cpRingSize ≤ 2 ^ 64)
    (hl : s.cp.clLoaded = false) (hlt : s.cp.q0.head < s.cp.q0.tail) :
    s.lines ++ [window s.cp.dram (s.cp.q0.ringAddr s.cp.q0.head) clBytes] =
      s.appended.take (s.lines.length + 1) := by
  have hhead := h.head_eq
  simp only [hl, Bool.false_eq_true, if_false, add_zero] at hhead
  obtain ⟨c, hc, htail⟩ := h.committed
  have hk : s.lines.length < s.appended.length := by omega
  have hslot : s.cp.q0.ringAddr s.cp.q0.head = slot base 1024 64 s.lines.length := by
    rw [hhead, ringAddr_slot h.ringLog2 (by rw [h.ringBase]; exact hbase), h.ringBase]
  have hline := h.holds.item s.lines.length _ le_rfl (getElem?_eq_getElem hk)
  rw [hslot, show clBytes = 64 from rfl, hline, take_succ_eq_append_getElem hk]
  exact congrArg (· ++ _) (prefix_iff_eq_take.mp h.taken)

theorem Core.tick (h : Core base s) (hbase : base + cpRingSize ≤ 2 ^ 64)
    (ha : Allowed s (.tick busy rsp)) (ht : s.cp.tick busy rsp = some cp) :
    Core base { s with cp := cp } := by
  obtain ⟨blocks, cur, hist⟩ := h.history
  have hring := RingStep.tick hist ht
  obtain ⟨head, seqnum, hregs⟩ := hring.regs
  have hmem : ∀ i < cpRingSize, cp.dram (base + i) = s.cp.dram (base + i) := by
    intro i hi
    exact tick_outside hist (ring_outside hi h.ringBase ha) ht
  have hkept : Holds cp.dram base 1024 64 s.lines.length s.appended :=
    h.holds.congr (by omega) hmem
  have hlines : linesOf cp.calls = s.lines ∨
      linesOf cp.calls = s.appended.take (s.lines.length + 1) := by
    rcases hring.fetch with hf | ⟨hl, hlt, hf⟩
    · exact .inl (by rw [linesOf, hf]; rfl)
    · right
      rw [← h.fetches hbase hl hlt, linesOf, hf, map_append]
      rfl
  have htaken : linesOf cp.calls <+: s.appended ∧
      s.lines.length ≤ (linesOf cp.calls).length := by
    rcases hlines with heq | heq
    · rw [heq]
      exact ⟨h.taken, le_rfl⟩
    · have hle := h.taken.length_le
      rw [heq, length_take]
      exact ⟨List.take_prefix _ _, by omega⟩
  refine ⟨hist.tick ht, ?_, ?_, h.tail, h.small, h.expected, ?_, htaken.1,
    hkept.mono htaken.2, ?_⟩
  · rw [hregs]
    exact h.ringBase
  · rw [hregs]
    exact h.ringLog2
  · rw [hregs]
    exact h.committed
  · intro ho
    rw [hregs]
    exact h.quiet ho

theorem Safe.tick (h : Safe base s) (hbase : base + cpRingSize ≤ 2 ^ 64)
    (ha : Allowed s (.tick busy rsp)) (ht : s.cp.tick busy rsp = some cp) :
    Safe base { s with cp := cp } := by
  obtain ⟨blocks, cur, hist⟩ := h.core.history
  obtain ⟨head, seqnum, hregs⟩ := (RingStep.tick hist ht).regs
  refine ⟨h.core.tick hbase ha ht, h.threads, ?_⟩
  intro i
  apply (h.locals i).of_ring
  · rw [hregs]
  · rw [hregs]
  · intro j hj
    exact tick_outside hist (ring_outside hj h.core.ringBase ha) ht

theorem Safe.poke {addr : ℕ} {byte : UInt8} (h : Safe base s) (ha : Allowed s (.poke addr byte)) :
    Safe base { s with cp := { s.cp with dram := update s.cp.dram addr byte } } := by
  have hmem : ∀ i < cpRingSize,
      update s.cp.dram addr byte (base + i) = s.cp.dram (base + i) := by
    intro i hi
    apply update_of_ne
    simp only [Allowed, h.core.ringBase] at ha
    omega
  obtain ⟨blocks, cur, hist⟩ := h.core.history
  have hout := hist.outside s.cp.cycleCounter s.cp.q0.tail s.cp.q0.tailLoStaging
    (update s.cp.dram addr byte)
  refine ⟨{ h.core with
    history := ⟨blocks, cur, hout⟩, holds := h.core.holds.congr (by omega) hmem },
    h.threads, ?_⟩
  intro i
  exact (h.locals i).of_ring rfl rfl hmem

end Processor

section Threads
variable {base i j : ℕ} {s t : Device} {p : Pc}

omit [VmBuild] in
theorem Local.of_not_critical (hp : critical p = false) : Local base s p := by
  cases p <;> trivial

theorem Safe.others (h : Safe base s) (ho : s.host.owner = some i ∨ s.host.owner = none)
    (hj : j ≠ i) : critical (s.pc j) = false := by
  by_contra hc
  have hown := (h.threads j).mp (Bool.eq_true_of_not_eq_false hc)
  rcases ho with ho | ho
  · rw [ho] at hown
    exact hj (Option.some.inj hown).symm
  · rw [ho] at hown
    cases hown

theorem Safe.move (h : Safe base s) (ho : s.host.owner = some i ∨ s.host.owner = none)
    (hcore : Core base t) (hpc : t.pc = update s.pc i p)
    (hown : t.host.owner = if critical p then some i else none) (hloc : Local base t p) :
    Safe base t := by
  refine ⟨hcore, ?_, ?_⟩
  · intro j
    by_cases hj : j = i
    · subst hj
      rw [hpc, update_self, hown]
      cases critical p <;> simp
    · rw [hpc, update_of_ne hj, h.others ho hj, hown]
      have hne : some i ≠ some j := fun heq => hj (Option.some.inj heq).symm
      cases critical p <;> simp [hne]
  · intro j
    by_cases hj : j = i
    · subst hj
      rw [hpc, update_self]
      exact hloc
    · rw [hpc, update_of_ne hj]
      exact Local.of_not_critical (h.others ho hj)

theorem Safe.wait (h : Safe base s) (hs : critical (s.pc i) = false) (hp : critical p = false) :
    Safe base (s.goto i p) := by
  refine ⟨{ h.core with }, ?_, ?_⟩
  · intro j
    have hthread := h.threads j
    by_cases hj : j = i
    · subst hj
      rw [hs] at hthread
      simp only [Device.goto, update_self, hp]
      exact hthread
    · simp only [Device.goto, update_of_ne hj]
      exact hthread
  · intro j
    by_cases hj : j = i
    · subst hj
      simp only [Device.goto, update_self]
      exact Local.of_not_critical hp
    · have hloc := h.locals j
      simp only [Device.goto, update_of_ne hj]
      cases hpj : s.pc j <;> rw [hpj] at hloc <;> exact hloc

theorem Core.keep (h : Core base s) {host : Host} {pc : ℕ → Pc} {mine : ℕ → Option ℕ}
    (htail : host.tail = s.host.tail) (hexp : host.expectedSeqnum = s.host.expectedSeqnum)
    (hquiet : host.owner = none → s.cp.q0.tail = host.tail) :
    Core base { s with host := host, pc := pc, mine := mine } :=
  { h with
    tail := htail.trans h.tail
    small := htail ▸ h.small
    expected := hexp.trans h.expected
    quiet := hquiet }

theorem Safe.at (h : Safe base s) (hpc : s.pc i = p) : Local base s p := hpc ▸ h.locals i

theorem Safe.owns (h : Safe base s) (hpc : s.pc i = p) (hp : critical p = true) :
    s.host.owner = some i :=
  (h.threads i).mp (hpc ▸ hp)

theorem Safe.lock (h : Safe base s) (hp : critical p = true) (hloc : s.cp.q0.tail = s.host.tail →
      Local base ((s.withHost { s.host with owner := some i }).goto i p) p) :
    Safe base (s.lock i p) := by
  unfold Device.lock
  split
  · rename_i ho
    refine h.move (p := p) (.inr ho) (h.core.keep rfl rfl ?_) rfl ?_ ?_
    · intro hnone
      cases hnone
    · rw [hp]
      rfl
    · exact hloc (h.core.quiet ho)
  · exact h

variable {p' : Pc}

theorem Safe.unlock (h : Safe base s) (hpc : s.pc i = p') (hs : critical p' = true)
    (hp : critical p = false) (hquiet : s.cp.q0.tail = s.host.tail) : Safe base (s.unlock i p) := by
  have ho := h.owns hpc hs
  refine h.move (p := p) (.inl ho) (h.core.keep rfl rfl (fun _ => hquiet)) rfl ?_ ?_
  · rw [hp]
    rfl
  · exact Local.of_not_critical hp

theorem Safe.stay (h : Safe base s) (flag : Bool) (target : ℕ) (hpc : s.pc i = p')
    (hs : critical p' = true) (hp : critical p = true) :
    let next := (s.withHost { s.host with inBatch := flag, batchTarget := target }).goto i p
    Local base next p → Safe base next := by
  intro next hloc
  have ho := h.owns hpc hs
  refine h.move (p := p) (.inl ho) (h.core.keep rfl rfl ?_) rfl ?_ hloc
  · intro hnone
    exact absurd (ho.symm.trans hnone) (by simp)
  · rw [hp]
    exact ho

variable {n : ℕ} {m : Mode} {cl : Mem}

theorem Core.slot_eq (h : Core base s) :
    base + s.ringOff = slot base 1024 64 s.appended.length ∧
    s.ringOff + cpClBytes ≤ cpRingSize := by
  obtain ⟨hoff, hfits⟩ := ringOff_eq h.tail
  exact ⟨by rw [hoff]; rfl, hfits⟩

theorem Safe.append (h : Safe base s) (hpc : s.pc i = .append m cl) :
    Safe base (s.append i m cl) := by
  obtain ⟨hslot, hfits⟩ := h.core.slot_eq
  have hm : Owned s m := h.at hpc
  unfold Device.append
  rw [if_neg (by omega)]
  refine h.stay s.host.inBatch s.host.batchTarget hpc rfl rfl ?_
  exact ⟨hm, hslot, Nat.zero_le _, fun j hj => absurd hj (Nat.not_lt_zero j)⟩

theorem Safe.copyByte {off : ℕ} (h : Safe base s)
    (hpc : s.pc i = .copy m cl off n) (hn : n < cpClBytes) (ha : Allowed s (.go i)) :
    Safe base (s.copyByte i m cl off n) := by
  have ho := h.owns hpc rfl
  obtain ⟨hm, hslot, _, hbytes⟩ := h.at hpc
  obtain ⟨hroom, _⟩ := ha (by rw [hpc]; rfl)
  obtain ⟨blocks, cur, hist⟩ := h.core.history
  have hout := hist.outside s.cp.cycleCounter s.cp.q0.tail s.cp.q0.tailLoStaging
    (update s.cp.dram (s.cp.q0.ringBase + off + n) (cl n))
  have hholds : Holds (update s.cp.dram (s.cp.q0.ringBase + off + n) (cl n)) base 1024 64
      s.lines.length s.appended := by
    rw [h.core.ringBase, hslot]
    exact h.core.holds.poke hn (h.core.free hroom)
  refine h.move (p := .copy m cl off (n + 1)) (.inl ho)
    { h.core with
      history := ⟨blocks, cur, hout⟩, holds := hholds } rfl ho ⟨hm, hslot, hn, ?_⟩
  intro j hj
  change update s.cp.dram (s.cp.q0.ringBase + off + n) (cl n) (base + off + j) = cl j
  rw [h.core.ringBase]
  rcases lt_or_ge j n with hlt | hge
  · rw [update_of_ne (by omega)]
    exact hbytes j hlt
  · rw [show j = n by omega, update_self]

theorem Safe.bump {off : ℕ} (h : Safe base s)
    (hpc : s.pc i = .copy m cl off n) (hn : ¬ n < cpClBytes) (ha : Allowed s (.go i)) :
    Safe base (s.bump i m cl) := by
  have ho := h.owns hpc rfl
  obtain ⟨hm, hslot, hle, hbytes⟩ := h.at hpc
  have htail := h.core.tail
  have hsmall : s.host.tail + 64 < 2 ^ 64 := (ha (by rw [hpc]; rfl)).2
  have hfull : n = 64 := by
    unfold cpClBytes at hn
    omega
  have hline : window s.cp.dram (slot base 1024 64 s.appended.length) 64 =
      window cl 0 cpClBytes := by
    rw [← hslot]
    apply window_congr
    intro j hj
    rw [zero_add]
    exact hbytes j (by omega)
  have hadd : add64 s.host.tail cpClBytes = s.host.tail + 64 := add64_of_lt hsmall
  have hexp : add64 s.host.expectedSeqnum 1 = s.appended.length + 1 := by
    rw [h.core.expected]
    apply add64_of_lt
    omega
  obtain ⟨c, hc, hcommitted⟩ := h.core.committed
  refine h.move (p := .setTarget m) (.inl ho) ⟨h.core.history, h.core.ringBase,
    h.core.ringLog2, ?_,
    ?_, ?_, ⟨c, ?_, hcommitted⟩, h.core.taken.trans (prefix_append _ _),
    h.core.holds.push hline, ?_⟩ rfl ho hm
  · simp only [Device.bump, Device.goto, hadd, length_append, length_singleton]
    omega
  · simp only [Device.bump, Device.goto, hadd]
    exact hsmall
  · simp [Device.bump, Device.goto, hexp]
  · simp only [Device.bump, Device.goto, length_append, length_singleton]
    omega
  · intro hnone
    exact absurd (ho.symm.trans hnone) (by simp)

theorem Safe.setTarget (h : Safe base s) (hpc : s.pc i = .setTarget m) :
    Safe base (s.setTarget i m) := by
  have hm : Owned s m := h.at hpc
  rcases hm with rfl | ⟨rfl, hflag⟩
  · exact h.stay s.host.inBatch s.host.batchTarget hpc rfl rfl trivial
  · exact h.stay s.host.inBatch _ hpc rfl rfl hflag

section
variable (h : Safe base s)
include h

theorem Safe.tailLo {target : ℕ} (hpc : s.pc i = .tailLo target) :
    Safe base ((s.regWrite 0x120 (s.host.tail % 2 ^ 32)).goto i (.tailHi target)) := by
  have ho := h.owns hpc rfl
  obtain ⟨blocks, cur, hist⟩ := h.core.history
  have hout := hist.outside s.cp.cycleCounter s.cp.q0.tail (s.host.tail % 2 ^ 32) s.cp.dram
  refine h.move (p := .tailHi target) (.inl ho)
    { h.core with history := ⟨blocks, cur, hout⟩ } rfl ho rfl

theorem Safe.tailHi {target : ℕ} (hpc : s.pc i = .tailHi target) :
    Safe base ((s.regWrite 0x124 (s.host.tail >>> 32)).goto i (.unlock target)) := by
  have ho := h.owns hpc rfl
  have hlo : s.cp.q0.tailLoStaging = s.host.tail % 2 ^ 32 := h.at hpc
  have hpair : (s.host.tail >>> 32) * 2 ^ 32 + s.cp.q0.tailLoStaging = s.host.tail := by
    rw [hlo, words_eq]
  obtain ⟨blocks, cur, hist⟩ := h.core.history
  have hout :=
    hist.outside s.cp.cycleCounter ((s.host.tail >>> 32) * 2 ^ 32 + s.cp.q0.tailLoStaging)
    s.cp.q0.tailLoStaging s.cp.dram
  refine h.move (p := .unlock target) (.inl ho)
    ⟨⟨blocks, cur, hout⟩, h.core.ringBase, h.core.ringLog2, h.core.tail, h.core.small,
      h.core.expected,
      ⟨s.appended.length, le_rfl, hpair.trans h.core.tail⟩, h.core.taken, h.core.holds,
      fun _ => hpair⟩ rfl ho hpair

theorem Safe.go (ha : Allowed s (.go i)) : Safe base (s.go i) := by
  unfold Device.go
  cases hpc : s.pc i with
  | idle => exact h
  | batch => exact h
  | beginWait => exact h.lock rfl (fun _ => trivial)
  | beginFlag => exact h.stay true s.host.batchTarget hpc rfl rfl rfl
  | beginTarget =>
    have ho := h.owns hpc rfl
    refine h.move (p := .batch) (.inl ho) (h.core.keep rfl rfl ?_) rfl ho (h.at hpc)
    intro hnone
    exact absurd (ho.symm.trans hnone) (by simp)
  | submitWait cl => exact h.lock rfl (fun _ => .inl rfl)
  | append m cl => exact h.append hpc
  | copy m cl off n =>
    dsimp only
    split
    · rename_i hn
      exact h.copyByte hpc hn ha
    · rename_i hn
      exact h.bump hpc hn ha
  | setTarget m => exact h.setTarget hpc
  | endFlag target => exact h.stay false s.host.batchTarget hpc rfl rfl trivial
  | tailLo target => exact h.tailLo hpc
  | tailHi target => exact h.tailHi hpc
  | unlock target => exact h.unlock hpc rfl rfl (h.at hpc)
  | pollWait target => exact h.lock rfl (fun hquiet => hquiet)
  | poll target =>
    refine h.unlock hpc rfl ?_ (h.at hpc)
    split <;> rfl

theorem Safe.batchBegin : Safe base (s.cpBatchBegin i) := by
  unfold Device.cpBatchBegin
  split
  · rename_i hpc
    exact h.wait (by rw [hpc]; rfl) rfl
  · exact h

theorem Safe.batchEnd : Safe base (s.cpBatchEnd i) := by
  unfold Device.cpBatchEnd
  split
  · rename_i hpc
    exact h.stay s.host.inBatch s.host.batchTarget hpc rfl rfl trivial
  · exact h

theorem Safe.submit (ha : Allowed s (.submit i cl)) : Safe base (s.cpSubmitCl i cl) := by
  unfold Device.cpSubmitCl
  split
  · rename_i hpc
    have hflag : ¬ s.host.inBatch = true := by
      intro hflag
      have hcrit := (h.threads i).mpr (ha hflag)
      rw [hpc] at hcrit
      cases hcrit
    rw [if_neg hflag]
    exact h.wait (by rw [hpc]; rfl) rfl
  · rename_i hpc
    have hflag : s.host.inBatch = true := h.at hpc
    rw [if_pos hflag]
    exact h.stay s.host.inBatch s.host.batchTarget hpc rfl rfl
      (.inr ⟨rfl, hflag⟩)
  · exact h

end

theorem Safe.step {a : Action} {o : Unit} (hbase : base + cpRingSize ≤ 2 ^ 64) (h : Safe base s)
    (ha : Allowed s a) (hstep : step s a = some (t, o)) : Safe base t := by
  cases a with
  | tick busy rsp =>
    obtain ⟨cp, hcp, heq⟩ := Option.map_eq_some_iff.mp hstep
    cases heq
    exact h.tick hbase ha hcp
  | poke addr byte =>
    cases hstep
    exact h.poke ha
  | batchBegin i =>
    cases hstep
    exact h.batchBegin
  | batchEnd i =>
    cases hstep
    exact h.batchEnd
  | submit i cl =>
    cases hstep
    exact h.submit ha
  | go i =>
    cases hstep
    exact h.go ha

theorem safe_opened {satp headAddr cmplAddr : ℕ} {mem : Mem} :
    Safe base (opened satp base headAddr cmplAddr mem) where
  core := ⟨⟨[], [], History.programmed⟩, rfl, rfl, rfl, Nat.two_pow_pos 64, rfl,
    ⟨0, le_rfl, rfl⟩, prefix_refl _, ⟨fun _ _ _ hx => by cases hx⟩, fun _ => rfl⟩
  threads := by
    intro i
    constructor
    · intro hc
      cases hc
    · intro ho
      cases ho
  locals := fun _ => trivial

end Threads

section Runs
variable {satp base headAddr cmplAddr : ℕ} {mem : Mem} {as : List Action}
  {r : Device × List Unit}

/-- The lines fetched are the first ones appended, every other line is still in its slot, and
none is left behind. -/
theorem lines_fetched_in_order (hbase : base + cpRingSize ≤ 2 ^ 64)
    (hC : Along step Allowed (opened satp base headAddr cmplAddr mem) as)
    (hrun : run step (opened satp base headAddr cmplAddr mem) as = some r) :
    linesOf r.1.cp.calls <+: r.1.appended ∧
      (∀ k x, (linesOf r.1.cp.calls).length ≤ k → r.1.appended[k]? = some x →
        window r.1.cp.dram (base + 64 * k % cpRingSize) 64 = x) ∧
      (r.1.host.owner = none → r.1.cp.clLoaded = false → r.1.cp.q0.tail ≤ r.1.cp.q0.head →
        linesOf r.1.cp.calls = r.1.appended) ∧
      ∀ busy rsp cp, r.1.cp.engState = .idle → r.1.cp.clLoaded = false →
        r.1.cp.enabled = true → r.1.cp.q0.head < r.1.cp.q0.tail →
        r.1.cp.tick busy rsp = some cp →
        linesOf cp.calls = r.1.appended.take ((linesOf r.1.cp.calls).length + 1) := by
  have h : Safe base r.1 :=
    run_reaches (fun _ _ _ _ hs ha hstep => hs.step hbase ha hstep) safe_opened hC hrun
  refine ⟨h.core.taken, ?_, ?_, ?_⟩
  · intro k x hk hx
    have hslot : base + 64 * k % cpRingSize = slot base 1024 64 k := by
      unfold slot cpRingSize
      omega
    rw [hslot]
    exact h.core.holds.item k x hk hx
  · intro ho hl hle
    have hhead := h.core.head_eq
    have htail := h.core.tail
    have hquiet := h.core.quiet ho
    have hlen := h.core.taken.length_le
    simp only [hl, Bool.false_eq_true, if_false] at hhead
    exact h.core.taken.eq_of_length (by unfold Device.lines at *; omega)
  · intro busy rsp cp hs hl he hlt ht
    have hf := tick_fetches hs hl he hlt ht
    have htake := h.core.fetches hbase hl hlt
    rw [linesOf, hf, map_append]
    exact htake

end Runs

end

def twoThreads : List Action :=
  [.batchBegin 0, .go 0, .go 0, .go 0, .submit 0 (fun i => if i = 0 then 7 else 0)] ++
    replicate 67 (.go 0) ++ [.batchEnd 0] ++ replicate 4 (.go 0) ++
    [.submit 1 (fun i => if i = 0 then 7 else if i = 4 then 1 else 0),
      .tick false (fun _ _ => 0)] ++
    replicate 71 (.go 1) ++ replicate 9 (.tick false (fun _ _ => 0))

theorem lines_fetched_twoThreads :
    letI := noVm
    (run step (opened 0 4096 0 64 (fun _ => 0)) twoThreads).map
        (fun r => ((linesOf r.1.cp.calls).length, r.1.appended.length, r.1.cp.q0.seqnum)) =
      some (2, 2, 2) ∧
    ∀ r, run step (opened 0 4096 0 64 (fun _ => 0)) twoThreads = some r →
      linesOf r.1.cp.calls <+: r.1.appended :=
  ⟨by decide +kernel, fun _ hrun =>
    (@lines_fetched_in_order noVm _ _ _ _ _ _ _ (by decide) (by decide +kernel) hrun).1⟩

end VortexGpu.Runtime

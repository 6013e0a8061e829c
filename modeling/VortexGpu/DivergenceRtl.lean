import VortexGpu.IpdomRtl

/-!
# The hardware stack against the simulator

Every warp of the core runs well-nested regions, each packet when the scheduler and the dispatch
of lanes allow it, beside a simulated warp that gets the same packets. What the hardware tells the
scheduler about a warp comes some clocks later, one instruction of a warp at a time; it is what the
simulator has said.
-/

namespace VortexGpu.Rtl
open Nat (mod_eq_of_lt)
open Simx (ThreadMask WctlType WctlTrace IpdomEntry Warp Divergence)
open Runs
open Function (update update_apply update_of_ne update_self)
open WarpCtl Option Nat Finset

namespace WctlConfig
variable [WctlConfig]

abbrev SimxWarp : Type := Warp numThreads xlen
abbrev Trace : Type := WctlTrace numThreads xlen
abbrev Entry : Type := IpdomEntry numThreads xlen

theorem pc_pow : 2 ^ (xlen - pcShift) * 2 ^ pcShift = 2 ^ xlen := by
  have hxlen := xlen_gt
  have hshift := pcShift_le
  rw [← pow_add]
  congr 1
  omega

theorem toFullPC_toNat (pc : Pc) : (toFullPC pc).toNat = pc.toNat * 2 ^ pcShift := by
  have hlt := pc.isLt
  have hle : 2 ^ (xlen - pcShift) ≤ 2 ^ xlen := Nat.pow_le_pow_right (by decide) (Nat.sub_le _ _)
  have hprod : pc.toNat * 2 ^ pcShift < 2 ^ xlen := by
    rw [← pc_pow]
    exact Nat.mul_lt_mul_of_pos_right hlt (Nat.two_pow_pos _)
  rw [toFullPC, BitVec.toNat_shiftLeft, BitVec.toNat_setWidth, shiftLeft_eq,
    mod_eq_of_lt (hlt.trans_le hle), mod_eq_of_lt hprod]

theorem four_toNat : (4 : BitVec xlen).toNat = 4 := by
  have hlt : 4 < 2 ^ xlen := lt_of_lt_of_le (by decide) (Nat.pow_le_pow_right (by decide) xlen_gt)
  change (BitVec.ofNat xlen 4).toNat = 4
  rw [BitVec.toNat_ofNat, mod_eq_of_lt hlt]

theorem fromFullPC_four : (fromFullPC 4).toNat * 2 ^ pcShift = 4 := by
  have hfour : 4 / 2 ^ pcShift * 2 ^ pcShift = 4 :=
    Nat.div_mul_cancel (Nat.pow_dvd_pow (m := pcShift) (n := 2) 2 pcShift_le)
  have hlt : 4 / 2 ^ pcShift < 2 ^ (xlen - pcShift) := by
    have hpow : 4 < 2 ^ xlen :=
      lt_of_lt_of_le (by decide) (Nat.pow_le_pow_right (by decide) xlen_gt)
    rw [← pc_pow] at hpow
    exact Nat.div_lt_of_lt_mul (by rwa [mul_comm])
  rw [fromFullPC, BitVec.toNat_setWidth, BitVec.toNat_ushiftRight, four_toNat,
    shiftRight_eq_div_pow, mod_eq_of_lt hlt, hfour]

theorem toFullPC_next (pc : Pc) : toFullPC (pc + fromFullPC 4) = toFullPC pc + 4 := by
  apply BitVec.eq_of_toNat_eq
  rw [BitVec.toNat_add, toFullPC_toNat, toFullPC_toNat, BitVec.toNat_add, four_toNat,
    ← mul_mod_mul_right, pc_pow, Nat.add_mul, fromFullPC_four]

/-- The stack pointer can count all entries, and the cells of the warps fit the memory. -/
class Fits : Prop where
  ptr : numThreads - 1 < 2 ^ dvStackSizeW
  cells : numThreads ≤ 2 ∨ numWarps = 2 ^ clog 2 numWarps

omit [WctlConfig] in
theorem le_pow_log2Up (x : ℕ) : x ≤ 2 ^ log2Up x := by
  unfold log2Up
  split_ifs
  · exact le_pow_clog (by decide) x
  · omega

section
variable {ptr wid : ℕ} (hptr : ptr < dvStackSize) (hwid : wid < numWarps)
include hptr hwid

theorem cell_lt : ptr * numWarps + wid < bramSize :=
  calc ptr * numWarps + wid < (ptr + 1) * numWarps := by rw [succ_mul]; omega
    _ ≤ dvStackSize * numWarps := mul_le_mul_right _ hptr

theorem addr_eq [Fits] : addr ptr wid = ptr * numWarps + wid := by
  unfold addr
  split_ifs with hboth hdepth hwarps
  · have hpow : numWarps = 2 ^ clog 2 numWarps := by
      refine Fits.cells.resolve_left fun hle => ?_
      simp only [dvStackSize] at hboth
      omega
    have hwidth : 2 ^ nwWidth = numWarps := by
      have hclog : 0 < clog 2 numWarps := clog_pos (by decide) hboth.2
      rw [nwWidth, max_eq_right hclog, ← hpow]
    rw [hwidth, mod_eq_of_lt ((cell_lt hptr hwid).trans_le (le_pow_log2Up _))]
  · obtain rfl : wid = 0 := by omega
    have hone : numWarps = 1 := by omega
    rw [hone, mul_one, add_zero]
  · obtain rfl : ptr = 0 := by omega
    rw [Nat.zero_mul, Nat.zero_add]
  · obtain rfl : ptr = 0 := by omega
    obtain rfl : wid = 0 := by omega
    rw [Nat.zero_mul]

theorem addr_lt [Fits] : addr ptr wid < bramSize :=
  addr_eq hptr hwid ▸ cell_lt hptr hwid

theorem addr_inj [Fits] {ptr' wid' : ℕ} (hptr' : ptr' < dvStackSize) (hwid' : wid' < numWarps)
    (h : addr ptr wid = addr ptr' wid') : ptr = ptr' ∧ wid = wid' := by
  rw [addr_eq hptr hwid, addr_eq hptr' hwid'] at h
  have hquot := congrArg (· / numWarps) h
  have hrem := congrArg (· % numWarps) h
  simp only [mul_comm _ numWarps, Nat.mul_add_div numWarps_pos, Nat.div_eq_of_lt hwid,
    Nat.div_eq_of_lt hwid', add_zero, Nat.mul_add_mod, mod_eq_of_lt hwid,
    mod_eq_of_lt hwid'] at hquot hrem
  exact ⟨hquot, hrem⟩

end

end WctlConfig

open WctlConfig

section
variable [WctlConfig]

def ExecPacket.trace (p : ExecPacket) : Trace := { p with pc := toFullPC p.pc }

@[simp] theorem ExecPacket.trace_type (p : ExecPacket) : p.trace.type = p.type := rfl

@[simp] theorem ExecPacket.trace_eop (p : ExecPacket) : p.trace.eop = p.eop := rfl

def joinDiverges (w : SimxWarp) (a : Trace) : Bool :=
  match w.tmask.last with
  | none => false
  | some t => decide (a.rs1 t ≠ w.ipdomStack.length)

def simxEvents (before after : SimxWarp) (a : Trace) : List WctlEvent :=
  match a.type with
  | .split => .result before.ipdomStack.length ::
      if a.eop then [.split (a.isDivergent before.tmask) after.tmask] else []
  | .join => if a.eop then [.join (joinDiverges before a) after.tmask after.pc] else []
  | .pred => if a.eop then [.pred after.tmask] else []

/-- Both machines, with what each has said about each warp. `begun` has a packet of an instruction
whose last packet is still to come, and the packets that have been accepted. -/
structure DvSystem where
  rtl : WarpCtl
  simx : ℕ → Divergence numThreads xlen
  begun : ℕ → Option (ExecPacket × Finset ℕ)
  rtlLog : ℕ → List WctlEvent
  simxLog : ℕ → List WctlEvent

namespace DvSystem

section
variable (s : DvSystem)

def done (p : ExecPacket) : Finset ℕ :=
  if p.sop then ∅ else ((s.begun p.wid).map (·.2)).getD ∅

def clocked (rtl : WarpCtl) (events : List (ℕ × WctlEvent)) : DvSystem :=
  { s with rtl := rtl, rtlLog := fun w => s.rtlLog w ++ (events.filter (·.1 = w)).map (·.2) }

def executed (p : ExecPacket) (d : Divergence numThreads xlen) : DvSystem :=
  { s with
    simx := update s.simx p.wid d
    begun := update s.begun p.wid (if p.eop then none else some (p, insert p.pid (s.done p)))
    simxLog := update s.simxLog p.wid
      (s.simxLog p.wid ++ simxEvents (s.simx p.wid).warp d.warp p.trace) }

def step (i : WctlIn) : Option (DvSystem × Unit) := do
  let (rtl, events) ← s.rtl.clock i
  let t := s.clocked rtl events
  match i.exec with
  | some (p, true) => do
    let (d, _) ← (s.simx p.wid).step p.trace
    some (t.executed p d, ())
  | _ => some (t, ())

end

end DvSystem

abbrev WarpCtl.regValid (s : WarpCtl) : Bool :=
  s.reg.tmcValid || s.reg.splitValid || s.reg.sjoinValid

abbrev WarpCtl.Commands (s : WarpCtl) (wid : ℕ) : Prop := s.regValid = true ∧ s.reg.wid = wid

abbrev WarpCtl.Answers (s : WarpCtl) (wid : ℕ) : Prop := s.out.valid = true ∧ s.out.wid = wid

/-- The hardware has an instruction of the warp that the scheduler does not know of yet. -/
def WarpCtl.InFlight (s : WarpCtl) (wid : ℕ) : Prop := s.Commands wid ∨ s.Answers wid

instance (s : WarpCtl) (wid : ℕ) : Decidable (s.InFlight wid) :=
  inferInstanceAs (Decidable (_ ∨ _))

namespace DvSystem

def SameInstr (p q : ExecPacket) : Prop :=
  p.type = q.type ∧ p.isCondNeg = q.isCondNeg ∧ p.pc = q.pc ∧ p.rs1 = q.rs1 ∧ p.rs2 = q.rs2

instance (p q : ExecPacket) : Decidable (SameInstr p q) := inferInstanceAs (Decidable (_ ∧ _))

/-- A packet of a warp that the scheduler has released: the packets of an instruction are the active
threads of its groups of lanes, none of them empty and the highest group last, and the instructions
of the warp are well nested. -/
@[mk_iff]
structure Offered (s : DvSystem) (p : ExecPacket) : Prop where
  wid : p.wid < numWarps
  released : ¬s.rtl.InFlight p.wid
  tmask : p.tmask = (s.rtl.threadMasks p.wid).filter fun t => t.val / numLanes = p.pid
  nonempty : p.tmask.Nonempty
  first : p.sop = true → s.begun p.wid = none ∧ s.rtl.warpPcs p.wid = p.pc + fromFullPC 4
  more : p.sop = false → s.begun p.wid ≠ none ∧ ∀ q ∈ s.begun p.wid, SameInstr p q.1
  last : p.eop = true → ∀ t ∈ s.rtl.threadMasks p.wid, t.val / numLanes ≤ p.pid ∧
    (t.val / numLanes = p.pid ∨ t.val / numLanes ∈ s.done p)
  nested : (s.simx p.wid).Nested p.trace

/-- The scheduler only fetches for a warp that is not stalled. -/
@[mk_iff]
structure Lawful (s : DvSystem) (i : WctlIn) : Prop where
  fetch : ∀ f ∈ i.fetch, ¬s.rtl.InFlight f.1 ∧ s.begun f.1 = none ∧ ∀ e ∈ i.exec,
    e.1.wid ≠ f.1
  exec : ∀ e ∈ i.exec, s.Offered e.1

instance (s : DvSystem) (p : ExecPacket) : Decidable (s.Offered p) :=
  decidable_of_iff _ (offered_iff s p).symm

instance (s : DvSystem) (i : WctlIn) : Decidable (s.Lawful i) :=
  decidable_of_iff _ (lawful_iff s i).symm

end DvSystem

/-- The cells of a warp hold the entries of a stack, each at its depth. -/
def Cells (ram : ℕ → IpdomCell) (wid : ℕ) : List Entry → Prop
  | [] => True
  | e :: rest => (ram (addr rest.length wid)).taken = e.fallthrough ∧
      (ram (addr rest.length wid)).tmask = e.origTmask ∧
      toFullPC (ram (addr rest.length wid)).pc = e.elsePC ∧ Cells ram wid rest

structure StackMatch (s : WarpCtl) (wid : ℕ) (stack : List Entry) : Prop where
  ptr : s.wrPtr wid = stack.length
  bound : stack.length < numThreads
  cells : Cells s.ram wid stack
  empty : s.empty wid = stack.isEmpty
  full : s.full wid = true → stack.length = dvStackSize

theorem Cells.congr {ram ram' : ℕ → IpdomCell} {wid : ℕ} {stack : List Entry}
    (h : Cells ram wid stack) (hsame : ∀ k < stack.length, ram' (addr k wid) = ram (addr k wid)) :
    Cells ram' wid stack := by
  induction stack with
  | nil => trivial
  | cons e rest ih =>
    obtain ⟨htaken, htmask, hpc, hrest⟩ := h
    have htop := hsame rest.length (lt_succ_self _)
    refine ⟨?_, ?_, ?_, ih hrest fun k hk => hsame k (lt_succ_of_lt hk)⟩
    · rw [htop, htaken]
    · rw [htop, htmask]
    · rw [htop, hpc]

namespace StackMatch
variable {s : WarpCtl} {i : WctlIn} {wid : ℕ} {stack : List Entry}

theorem depth_lt (h : StackMatch s wid stack) {k : ℕ} (hk : k < stack.length) :
    k < dvStackSize := by
  have hbound := h.bound
  simp only [dvStackSize]
  omega

theorem writeRam_self {a : ℕ} (ha : a < bramSize) (c : IpdomCell) : s.writeRam a c a = c := by
  rw [writeRam, if_pos ha, update_self]

theorem writeRam_of_ne {a b : ℕ} (h : b ≠ a) (c : IpdomCell) : s.writeRam a c b = s.ram b := by
  unfold writeRam
  split_ifs
  · rw [update_of_ne h]
  · rfl

theorem next_other {w : ℕ} (hpush : s.push = true → s.reg.wid ≠ w)
    (hpop : s.pop = true → s.reg.wid ≠ w) :
    s.nextPtr w = s.wrPtr w ∧ s.nextEmpty w = s.empty w ∧ s.nextFull w = s.full w := by
  simp only [nextPtr, nextEmpty, nextFull]
  by_cases hpushes : s.push = true
  · simp [hpushes, update_of_ne (hpush hpushes).symm]
  · by_cases hpops : s.pop = true
    · simp [hpushes, hpops, update_of_ne (hpop hpops).symm]
    · simp [hpushes, hpops]

theorem nextRam_of_ne {a : ℕ} (hpush : s.push = true → a ≠ addr (s.wrPtr s.reg.wid) s.reg.wid)
    (hpop : s.push ≠ true → s.pop = true → a ≠ addr s.reg.sjoin.stackPtr s.reg.wid) :
    s.nextRam a = s.ram a := by
  unfold nextRam
  split_ifs with hpushes hpops
  · exact writeRam_of_ne (hpush hpushes) _
  · exact writeRam_of_ne (hpop hpushes hpops) _
  · rfl

theorem other (h : StackMatch s wid stack) [Fits] (hwid : wid < numWarps)
    (hpush : s.push = true → s.reg.wid ≠ wid ∧ s.reg.wid < numWarps ∧
      s.wrPtr s.reg.wid < dvStackSize)
    (hpop : s.pop = true → s.reg.wid ≠ wid ∧ s.reg.wid < numWarps ∧
      s.reg.sjoin.stackPtr < dvStackSize) : StackMatch (s.next i) wid stack := by
  obtain ⟨hptr, hempty, hfull⟩ := next_other (fun hc => (hpush hc).1) fun hc => (hpop hc).1
  refine ⟨hptr.trans h.ptr, h.bound,
    h.cells.congr fun k hk => nextRam_of_ne (fun hc heq => ?_) fun _ hc heq => ?_,
    hempty.trans h.empty, fun hf => h.full (hfull.symm.trans hf)⟩
  · obtain ⟨hne, hreg, hlt⟩ := hpush hc
    exact hne (addr_inj (h.depth_lt hk) hwid hlt hreg heq).2.symm
  · obtain ⟨hne, hreg, hlt⟩ := hpop hc
    exact hne (addr_inj (h.depth_lt hk) hwid hlt hreg heq).2.symm

theorem pushed (h : StackMatch s s.reg.wid stack) [Fits] (hwid : s.reg.wid < numWarps)
    (hpush : s.push = true) (hroom : stack.length + 1 < numThreads) :
    StackMatch (s.next i) s.reg.wid
      (⟨s.reg.split.thenTmask ∪ s.reg.split.elseTmask, toFullPC s.reg.split.nextPc,
        false⟩ :: stack) := by
  have hptr : numThreads - 1 < 2 ^ dvStackSizeW := Fits.ptr
  have hsize : dvStackSize = numThreads - 1 := by
    simp only [dvStackSize]
    omega
  have hdepth : stack.length < dvStackSize := by omega
  have htop : (s.next i).ram (addr stack.length s.reg.wid) =
      ⟨false, s.reg.split.thenTmask ∪ s.reg.split.elseTmask, s.reg.split.nextPc⟩ := by
    simp [next, nextRam, hpush, h.ptr, writeRam_self (addr_lt hdepth hwid)]
  refine ⟨?_, hroom, ⟨by rw [htop], by rw [htop], by rw [htop], h.cells.congr fun k hk =>
    nextRam_of_ne (fun _ heq => ?_) fun hno => absurd hpush hno⟩, ?_, ?_⟩
  · simp only [next, nextPtr, hpush, if_true, update_self, h.ptr, List.length_cons]
    exact mod_eq_of_lt (by omega)
  · rw [h.ptr] at heq
    exact Nat.ne_of_lt hk (addr_inj (h.depth_lt hk) hwid hdepth hwid heq).1
  · simp [next, nextEmpty, hpush]
  · simp only [next, nextFull, hpush, if_true, update_self, h.ptr, decide_eq_true_eq,
      List.length_cons]
    rw [mod_eq_of_lt (by omega)]
    omega

theorem popped {e : Entry} (h : StackMatch s s.reg.wid (e :: stack)) [Fits]
    (hwid : s.reg.wid < numWarps) (hpush : s.push = false) (hpop : s.pop = true)
    (hptr : s.reg.sjoin.stackPtr = stack.length) :
    StackMatch (s.next i) s.reg.wid (if e.fallthrough then stack
      else { e with fallthrough := true } :: stack) := by
  have hbound := h.bound
  have hwidth : numThreads - 1 < 2 ^ dvStackSizeW := Fits.ptr
  have hdepth := h.depth_lt (k := stack.length) (lt_succ_self _)
  obtain ⟨htaken, htmask, hpc, hcells⟩ := h.cells
  have htop : s.top = s.ram (addr stack.length s.reg.wid) := by rw [top, hptr]
  have hcell : (s.next i).ram (addr stack.length s.reg.wid) = { s.top with taken := true } := by
    simp [next, nextRam, hpush, hpop, hptr, writeRam_self (addr_lt hdepth hwid)]
  have hcount : (s.next i).wrPtr s.reg.wid =
      (stack.length + 1 + (2 ^ dvStackSizeW - if e.fallthrough then 1 else 0)) %
      2 ^ dvStackSizeW := by
    simp [next, nextPtr, hpush, hpop, h.ptr, htop, htaken]
  have hempty : (s.next i).empty s.reg.wid = (decide (stack.length = 0) && e.fallthrough) := by
    simp [next, nextEmpty, hpush, hpop, htop, htaken, hptr]
  have hrest : Cells (s.next i).ram s.reg.wid stack := by
    refine hcells.congr fun k hk => nextRam_of_ne (fun hc => by simp [hpush] at hc) fun _ _ heq =>
      ?_
    rw [hptr] at heq
    exact Nat.ne_of_lt hk (addr_inj (hk.trans hdepth) hwid hdepth hwid heq).1
  have hfull : (s.next i).full s.reg.wid = true → False := by
    simp [next, nextFull, hpush, hpop]
  simp only [List.length_cons] at hbound
  cases hfall : e.fallthrough with
  | true =>
    refine ⟨?_, by simpa using lt_of_succ_lt hbound, hrest, ?_, fun hf => (hfull hf).elim⟩
    · rw [hcount, hfall, if_pos rfl, if_pos rfl,
        show stack.length + 1 + (2 ^ dvStackSizeW - 1) = stack.length + 2 ^ dvStackSizeW by omega,
        Nat.add_mod_right]
      exact mod_eq_of_lt (by omega)
    · rw [hempty, hfall]
      cases stack <;> simp
  | false =>
    refine ⟨?_, by simpa using hbound,
      ⟨by rw [hcell], by rw [hcell, htop, htmask], by rw [hcell, htop, hpc], hrest⟩, ?_,
      fun hf => (hfull hf).elim⟩
    · rw [hcount, hfall, if_neg Bool.false_ne_true, if_neg Bool.false_ne_true, Nat.sub_zero,
        Nat.add_mod_right]
      exact mod_eq_of_lt (by omega)
    · rw [hempty, hfall, Bool.and_false]
      rfl

end StackMatch

/-- The threads of one side that the packets so far have, out of the threads of the mask. -/
structure Collects (m : Mask) (a : Trace) (side : Bool)
    (done : Finset ℕ) (old : Mask) : Prop where
  sub : old ⊆ m.filter fun t => a.cond t = side
  all : ∀ t ∈ m, a.cond t = side → t.val / numLanes ∈ done → t ∈ old

namespace Collects
variable {m old : Mask} {a : Trace} {side : Bool} {done : Finset ℕ}

theorem empty (m : Mask) (a : Trace) (side : Bool) :
    Collects m a side ∅ ∅ := ⟨empty_subset _, fun _ _ _ ht => absurd ht (notMem_empty _)⟩

theorem mono {done' : Finset ℕ} (h : Collects m a side done old) (hsub : done' ⊆ done) :
    Collects m a side done' old :=
  ⟨h.sub, fun t ht hcond hdone => h.all t ht hcond (hsub hdone)⟩

theorem of_cond {b : Trace} (h : Collects m a side done old) (hcond : b.cond = a.cond) :
    Collects m b side done old := ⟨by rw [hcond]; exact h.sub, by rw [hcond]; exact h.all⟩

theorem collect {p : ExecPacket} (h : Collects m p.trace side done old)
    (htmask : p.tmask = m.filter fun t => t.val / numLanes = p.pid) :
    Collects m p.trace side (insert p.pid done) (WarpCtl.collect old p side) := by
  constructor
  · intro t ht
    rcases mem_union.mp ht with ht | ht
    · exact h.sub (mem_of_mem_filter t ht)
    · obtain ⟨htm, hside⟩ := mem_filter.mp ht
      rw [htmask] at htm
      exact mem_filter.mpr ⟨mem_of_mem_filter t htm, hside⟩
  · intro t ht hcond hdone
    rw [WarpCtl.collect, mem_union, mem_filter, mem_filter, htmask, mem_filter]
    by_cases hpid : t.val / numLanes = p.pid
    · exact .inr ⟨⟨ht, hpid⟩, hcond⟩
    · exact .inl ⟨h.all t ht hcond (mem_of_mem_insert_of_ne hdone hpid), hpid⟩

theorem complete (h : Collects m a side done old) (hall : ∀ t ∈ m, t.val / numLanes ∈ done) :
    old = m.filter fun t => a.cond t = side := by
  refine Finset.Subset.antisymm h.sub fun t ht => ?_
  obtain ⟨htm, hcond⟩ := mem_filter.mp ht
  exact h.all t htm hcond (hall t htm)

end Collects

namespace WarpCtl
variable (s : WarpCtl) (w : ℕ)

omit [WctlConfig] in
theorem update_if {α : Type} (c : Bool) (f : ℕ → α) (k : ℕ) (v : α) :
    (if c then update f k v else f) w = if c = true ∧ k = w then v else f w := by
  cases c
  · rfl
  · by_cases hk : k = w
    · simp [hk]
    · simp [hk, update_of_ne (Ne.symm hk)]

theorem nextMasks_apply : s.nextMasks w =
    if (s.out.valid && s.out.isDvg) = true ∧ s.out.wid = w then s.out.tmask
    else if (s.reg.splitValid && s.reg.split.isDvg) = true ∧
    s.reg.wid = w then s.reg.split.thenTmask
    else if s.reg.tmcValid = true ∧ s.reg.wid = w then s.reg.tmc else s.threadMasks w := by
  simp only [nextMasks, update_if]

theorem nextPcs_none : s.nextPcs none w =
    if (s.out.valid && s.out.isDvg && s.out.isElse) = true ∧ s.out.wid = w then s.out.pc
    else s.warpPcs w := by
  simp only [nextPcs, update_if]

theorem nextPcs_of_ne {f : Option (ℕ × Pc)} (hne : ∀ x ∈ f, x.1 ≠ w) :
    s.nextPcs f w = s.nextPcs none w := by
  cases f with
  | none => rfl
  | some x => simp only [nextPcs, update_of_ne (hne x rfl).symm]

def eventsOf (i : WctlIn) : List WctlEvent := ((s.events i).filter (·.1 = w)).map (·.2)

def resultOf (i : WctlIn) : List WctlEvent := ((s.results i.exec).filter (·.1 = w)).map (·.2)

theorem filter_one (c : Prop) [Decidable c] (k : ℕ) (f : ℕ → WctlEvent) :
    ((if c then [(k, f k)] else []).filter (·.1 = w)).map (·.2) = if c ∧ k = w then [f w]
      else [] := by
  by_cases hc : c <;> by_cases hk : k = w <;> simp [hc, hk]

theorem eventsOf_eq (i : WctlIn) : s.eventsOf w i = (if s.Answers w then
      [.join s.out.isDvg (s.nextMasks w) (toFullPC (s.nextPcs none w))] else []) ++
    (if s.reg.splitValid = true ∧ s.reg.wid = w then [.split s.reg.split.isDvg (s.nextMasks w)]
      else []) ++ (if s.reg.tmcValid = true ∧ s.reg.wid = w then [.pred (s.nextMasks w)]
      else []) ++ s.resultOf w i := by
  simp only [eventsOf, events, resultOf, List.filter_append, List.map_append]
  rw [filter_one w _ s.out.wid fun k =>
    .join s.out.isDvg (s.nextMasks k) (toFullPC (s.nextPcs none k)),
    filter_one w _ s.reg.wid fun k => .split s.reg.split.isDvg (s.nextMasks k),
    filter_one w _ s.reg.wid fun k => .pred (s.nextMasks k)]

theorem resultOf_of_ne {i : WctlIn} (hne : ∀ e ∈ i.exec, e.1.wid ≠ w) :
    s.resultOf w i = [] := by
  unfold resultOf results
  split
  · next p hexec => rw [filter_one w _ p.wid fun k => .result (s.stackPtr k),
      if_neg fun hc => hne _ hexec hc.2]
  · rfl

theorem resultOf_exec {i : WctlIn} {p : ExecPacket} (hexec : i.exec = some (p, true)) :
    s.resultOf p.wid i = if p.type = .split then [.result (s.stackPtr p.wid)] else [] := by
  simp only [resultOf, results, hexec]
  rw [filter_one p.wid _ p.wid fun k => .result (s.stackPtr k)]
  simp

section
variable {s w} (hreg : ¬s.Commands w)
include hreg

theorem quiet_reg :
    ¬(s.reg.tmcValid = true ∧ s.reg.wid = w) ∧
    ¬(s.reg.splitValid = true ∧ s.reg.wid = w) ∧
    ¬(s.reg.sjoinValid = true ∧ s.reg.wid = w) := by
  refine ⟨?_, ?_, ?_⟩ <;> exact fun hc => hreg ⟨by simp [hc.1], hc.2⟩

theorem quiet_masks : s.nextMasks w =
    if (s.out.valid && s.out.isDvg) = true ∧ s.out.wid = w then s.out.tmask
    else s.threadMasks w := by
  obtain ⟨htmc, hsplit, -⟩ := quiet_reg hreg
  have hdvg : ¬((s.reg.splitValid && s.reg.split.isDvg) = true ∧ s.reg.wid = w) := fun hc =>
    hsplit ⟨(Bool.and_eq_true_iff.mp hc.1).1, hc.2⟩
  rw [nextMasks_apply, if_neg htmc, if_neg hdvg]

theorem quiet_events {i : WctlIn} : s.eventsOf w i = (if s.Answers w then
    [.join s.out.isDvg (s.nextMasks w) (toFullPC (s.nextPcs none w))]
    else []) ++ s.resultOf w i := by
  obtain ⟨htmc, hsplit, -⟩ := quiet_reg hreg
  rw [eventsOf_eq, if_neg hsplit, if_neg htmc, List.append_nil, List.append_nil]

end

structure Begun (s : WarpCtl) (w : ℕ) (q : ExecPacket) (done : Finset ℕ) : Prop where
  pc : s.warpPcs w = q.pc + fromFullPC 4
  thens : Collects (s.threadMasks w) q.trace true done (s.tmaskTable w).2
  elses : Collects (s.threadMasks w) q.trace false done (s.tmaskTable w).1

/-- Which of the commands the register has. -/
abbrev Holds (s : WarpCtl) (tmc split join : Bool) : Prop :=
  s.reg.tmcValid = tmc ∧ s.reg.splitValid = split ∧ s.reg.sjoinValid = join

/-- The command of the last packet is in the register of the unit, with what it will do. -/
inductive Command (s : WarpCtl) (w : ℕ) (x : SimxWarp) : WctlEvent → Prop
  | pred (hvalid : s.Holds true false false) (hmask : s.reg.tmc = x.tmask)
      (hstack : StackMatch s w x.ipdomStack) : Command s w x (.pred x.tmask)
  | uniform (hvalid : s.Holds false true false) (hdvg : s.reg.split.isDvg = false)
      (hmask : s.threadMasks w = x.tmask) (hstack : StackMatch s w x.ipdomStack) :
      Command s w x (.split false x.tmask)
  | split (stack : List Entry) (hvalid : s.Holds false true false)
      (hdvg : s.reg.split.isDvg = true) (hmask : s.reg.split.thenTmask = x.tmask)
      (hstack : StackMatch s w stack) (hroom : stack.length + 1 < numThreads)
      (hpush : x.ipdomStack = ⟨s.reg.split.thenTmask ∪ s.reg.split.elseTmask,
        toFullPC s.reg.split.nextPc, false⟩ :: stack) : Command s w x (.split true x.tmask)
  | pass (hvalid : s.Holds false false true) (hptr : s.reg.sjoin.stackPtr = s.wrPtr w)
      (hmask : s.threadMasks w = x.tmask) (hpc : toFullPC (s.warpPcs w) = x.pc)
      (hstack : StackMatch s w x.ipdomStack) : Command s w x (.join false x.tmask x.pc)
  | back (e : Entry) (stack : List Entry) (hvalid : s.Holds false false true)
      (hptr : s.reg.sjoin.stackPtr = stack.length) (hfall : e.fallthrough = false)
      (hmask : x.tmask = e.origTmask \ s.reg.sjoin.tmask) (hpc : x.pc = e.elsePC)
      (hstack : StackMatch s w (e :: stack))
      (hpop : x.ipdomStack = { e with fallthrough := true } :: stack) :
      Command s w x (.join true x.tmask x.pc)
  | restore (e : Entry) (hvalid : s.Holds false false true)
      (hptr : s.reg.sjoin.stackPtr = x.ipdomStack.length) (hfall : e.fallthrough = true)
      (hmask : x.tmask = e.origTmask) (hpc : toFullPC (s.warpPcs w) = x.pc)
      (hstack : StackMatch s w (e :: x.ipdomStack)) : Command s w x (.join true x.tmask x.pc)

theorem Command.valid {s : WarpCtl} {w : ℕ} {x : SimxWarp} {e : WctlEvent}
    (h : s.Command w x e) : s.regValid = true := by
  cases h <;> simp [*]

structure Answer (s : WarpCtl) (w : ℕ) (x : SimxWarp) : Prop where
  stack : StackMatch s w x.ipdomStack
  mask : (if s.out.isDvg then s.out.tmask else s.threadMasks w) = x.tmask
  pc : toFullPC (if s.out.isDvg && s.out.isElse then s.out.pc else s.warpPcs w) = x.pc

/-- Where a warp is in the hardware, with the simulated warp, the instruction under way and what
both have said. -/
inductive Phase (s : WarpCtl) (w : ℕ) (x : SimxWarp)
    (b : Option (ExecPacket × Finset ℕ)) (simxLog rtlLog : List WctlEvent) : Prop
  | idle (hfree : ¬s.InFlight w) (hmask : s.threadMasks w = x.tmask)
      (hstack : StackMatch s w x.ipdomStack) (hlog : simxLog = rtlLog)
      (hbegun : ∀ q ∈ b, s.Begun w q.1 q.2) :
      Phase s w x b simxLog rtlLog
  | command (e : WctlEvent) (hwid : s.reg.wid = w) (hout : ¬s.Answers w)
      (hcommand : s.Command w x e) (hlog : simxLog = rtlLog ++ [e]) (hbegun : b = none) :
      Phase s w x b simxLog rtlLog
  | answer (hreg : ¬s.Commands w) (hout : s.Answers w) (hanswer : s.Answer w x)
      (hlog : simxLog = rtlLog ++ [.join s.out.isDvg x.tmask x.pc]) (hbegun : b = none) :
      Phase s w x b simxLog rtlLog

end WarpCtl

namespace DvSystem

structure Inv (s : DvSystem) : Prop where
  regWid : s.rtl.regValid = true → s.rtl.reg.wid < numWarps
  simx : ∀ w < numWarps, (s.simx w).Inv
  phase : ∀ w < numWarps, s.rtl.Phase w (s.simx w).warp (s.begun w) (s.simxLog w) (s.rtlLog w)

variable {s : DvSystem} {i : WctlIn} {w : ℕ} {stack : List Entry}

theorem Inv.command (h : s.Inv) (hvalid : s.rtl.regValid = true) :
    ∃ e, s.rtl.Command s.rtl.reg.wid (s.simx s.rtl.reg.wid).warp e := by
  cases h.phase s.rtl.reg.wid (h.regWid hvalid) with
  | idle hfree => exact absurd (.inl ⟨hvalid, rfl⟩) hfree
  | command e hwid hout hcommand => exact ⟨e, hcommand⟩
  | answer hreg => exact absurd ⟨hvalid, rfl⟩ hreg

theorem Inv.push_room (h : s.Inv) (hpush : s.rtl.push = true) : s.rtl.reg.wid < numWarps ∧
    s.rtl.reg.sjoinValid = false ∧ ∃ stack, StackMatch s.rtl s.rtl.reg.wid stack ∧
    stack.length + 1 < numThreads := by
  simp only [push, Bool.and_eq_true] at hpush
  obtain ⟨⟨_, hvalid⟩, hdvg⟩ := hpush
  have hany : s.rtl.regValid = true := by simp [hvalid]
  obtain ⟨e, hcommand⟩ := h.command hany
  refine ⟨h.regWid hany, ?_⟩
  cases hcommand with
  | uniform _ hno => simp [hno] at hdvg
  | split stack hholds _ _ hstack hroom => exact ⟨hholds.2.2, stack, hstack, hroom⟩
  | pred hholds | pass hholds | back _ _ hholds | restore _ hholds => simp [hholds] at hvalid

theorem Inv.pop_entry (h : s.Inv) (hpop : s.rtl.pop = true) : s.rtl.reg.wid < numWarps ∧
    s.rtl.reg.splitValid = false ∧ ∃ e stack, StackMatch s.rtl s.rtl.reg.wid (e :: stack) ∧
      s.rtl.reg.sjoin.stackPtr = stack.length := by
  simp only [pop, sjoinIsDvg, Bool.and_eq_true, decide_eq_true_eq] at hpop
  obtain ⟨hvalid, _, hne⟩ := hpop
  have hany : s.rtl.regValid = true := by simp [hvalid]
  obtain ⟨e, hcommand⟩ := h.command hany
  refine ⟨h.regWid hany, ?_⟩
  cases hcommand with
  | pred hholds | uniform hholds | split _ hholds => simp [hholds] at hvalid
  | pass _ hptr => exact absurd hptr hne
  | back e stack hholds hptr _ _ _ hstack => exact ⟨hholds.2.1, e, stack, hstack, hptr⟩
  | restore e hholds hptr _ _ _ hstack => exact ⟨hholds.2.1, e, _, hstack, hptr⟩

theorem Inv.asserts (h : s.Inv) : s.rtl.asserts = true := by
  simp only [WarpCtl.asserts, Bool.and_eq_true, Bool.not_eq_true', Bool.and_eq_false_iff]
  refine ⟨⟨?_, ?_⟩, ?_⟩
  all_goals refine or_iff_not_imp_left.mpr fun hc => ?_
  all_goals rw [Bool.not_eq_false] at hc
  · obtain ⟨_, _, stack, hstack, hroom⟩ := h.push_room hc
    refine Bool.eq_false_iff.mpr fun hfull => ?_
    have hlen := hstack.full hfull
    simp only [dvStackSize] at hlen
    omega
  · obtain ⟨_, _, e, stack, hstack, _⟩ := h.pop_entry hc
    exact hstack.empty
  · obtain ⟨_, hjoin, _⟩ := h.push_room hc
    simp [pop, hjoin]

theorem Inv.stack_other (h : s.Inv) [Fits] (hw : w < numWarps) (hreg : ¬s.rtl.Commands w)
    (hstack : StackMatch s.rtl w stack) : StackMatch (s.rtl.next i) w stack := by
  refine hstack.other hw ?_ ?_
  · intro hpush
    obtain ⟨hlt, _, stack', hstack', hroom⟩ := h.push_room hpush
    simp only [push, Bool.and_eq_true] at hpush
    refine ⟨fun heq => hreg ⟨by simp [hpush.1.2], heq⟩, hlt, ?_⟩
    rw [hstack'.ptr]
    simp only [dvStackSize]
    omega
  · intro hpop
    obtain ⟨hlt, _, e, stack', hstack', hptr⟩ := h.pop_entry hpop
    simp only [pop, Bool.and_eq_true] at hpop
    refine ⟨fun heq => hreg ⟨by simp [hpop.1], heq⟩, hlt, ?_⟩
    rw [hptr]
    exact hstack'.depth_lt (lt_succ_self _)

theorem nextReg_other (hexec : ∀ e ∈ i.exec, e.1.wid ≠ w) : ¬(s.rtl.next i).Commands w := by
  simp only [next]
  cases hi : i.exec with
  | none => simp [nextReg]
  | some e => exact fun hvalid => hexec e hi hvalid.2

section
variable (hfree : ¬s.rtl.InFlight w)
include hfree

theorem free_masks : s.rtl.nextMasks w = s.rtl.threadMasks w := by
  rw [quiet_masks fun hc => hfree (.inl hc), if_neg]
  exact fun hc => hfree (.inr ⟨(Bool.and_eq_true_iff.mp hc.1).1, hc.2⟩)

theorem free_events : s.rtl.eventsOf w i = s.rtl.resultOf w i := by
  rw [quiet_events fun hc => hfree (.inl hc), if_neg fun hc => hfree (.inr hc), List.nil_append]

theorem free_out : ¬(s.rtl.next i).Answers w := (quiet_reg fun hc => hfree (.inl hc)).2.2

end

theorem kept_pcs (hout : ¬s.rtl.Answers w) (hfetch : ∀ f ∈ i.fetch, f.1 ≠ w) :
    (s.rtl.next i).warpPcs w = s.rtl.warpPcs w := by
  simp only [next]
  rw [nextPcs_of_ne _ _ hfetch, nextPcs_none, if_neg]
  simp only [Bool.and_eq_true]
  exact fun hc => hout ⟨hc.1.1.1, hc.2⟩

theorem kept_stack [Fits] (hw : w < numWarps) (hpush : s.rtl.push = false)
    (hpop : s.rtl.pop = false) (hstack : StackMatch s.rtl w stack) :
    StackMatch (s.rtl.next i) w stack :=
  hstack.other hw (fun hc => by simp [hpush] at hc) (fun hc => by simp [hpop] at hc)

theorem top_entry {e : Entry} (hstack : StackMatch s.rtl s.rtl.reg.wid (e :: stack))
    (hptr : s.rtl.reg.sjoin.stackPtr = stack.length) :
    s.rtl.sjoinIsDvg = true ∧ s.rtl.top.taken = e.fallthrough ∧
    s.rtl.top.tmask = e.origTmask ∧ toFullPC s.rtl.top.pc = e.elsePC := by
  have hbound := hstack.bound
  obtain ⟨htaken, htmask, hpc, _⟩ := hstack.cells
  simp only [List.length_cons] at hbound
  refine ⟨?_, by rw [top, hptr, htaken], by rw [top, hptr, htmask], by rw [top, hptr, hpc]⟩
  simp only [sjoinIsDvg, enabled, hstack.ptr, hptr, List.length_cons, Bool.and_eq_true,
    decide_eq_true_eq]
  omega

theorem command_next [Fits] (hw : s.rtl.reg.wid < numWarps) {x : SimxWarp}
    {e : WctlEvent} (hout : ¬s.rtl.Answers s.rtl.reg.wid)
    (hfetch : ∀ f ∈ i.fetch, f.1 ≠ s.rtl.reg.wid)
    (hexec : ∀ e ∈ i.exec, e.1.wid ≠ s.rtl.reg.wid)
    (hcommand : s.rtl.Command s.rtl.reg.wid x e) {simxLog rtlLog : List WctlEvent}
    (hlog : simxLog = rtlLog ++ [e]) :
    (s.rtl.next i).Phase s.rtl.reg.wid x none simxLog (rtlLog ++
      s.rtl.eventsOf s.rtl.reg.wid i) := by
  have hother := nextReg_other (s := s) hexec
  have hevents := s.rtl.eventsOf_eq s.rtl.reg.wid i
  rw [if_neg hout, s.rtl.resultOf_of_ne _ hexec] at hevents
  have hpcs := kept_pcs hout hfetch
  have hnext := s.rtl.nextMasks_apply s.rtl.reg.wid
  rw [if_neg fun hc => hout ⟨(Bool.and_eq_true_iff.mp hc.1).1, hc.2⟩] at hnext
  have hidle (hjoin : s.rtl.reg.sjoinValid = false)
      (hmasks : s.rtl.nextMasks s.rtl.reg.wid = x.tmask)
      (hstack : StackMatch (s.rtl.next i) s.rtl.reg.wid x.ipdomStack)
      (hevent : s.rtl.nextMasks s.rtl.reg.wid = x.tmask → s.rtl.eventsOf s.rtl.reg.wid i = [e]) :
      (s.rtl.next i).Phase s.rtl.reg.wid x none simxLog (rtlLog ++
        s.rtl.eventsOf s.rtl.reg.wid i) := by
    refine .idle (not_or.mpr ⟨hother, ?_⟩) hmasks hstack (by rw [hlog, hevent hmasks]) (by simp)
    simp [next, nextOut, hjoin]
  cases hcommand with
  | pred hvalid hmask hstack =>
    exact hidle hvalid.2.2 (by simp [hnext, hvalid, hmask])
      (kept_stack hw (by simp [push, hvalid]) (by simp [pop, hvalid]) hstack)
      fun hmasks => by simp [hevents, hvalid, hmasks]
  | uniform hvalid hdvg hmask hstack =>
    exact hidle hvalid.2.2 (by simp [hnext, hdvg, hvalid, hmask])
      (kept_stack hw (by simp [push, hdvg]) (by simp [pop, hvalid]) hstack)
      fun hmasks => by simp [hevents, hvalid, hmasks, hdvg]
  | split stack hvalid hdvg hmask hstack hroom hpush =>
    have henabled : enabled = true := by
      simp only [enabled, decide_eq_true_eq]
      omega
    refine hidle hvalid.2.2 (by simp [hnext, hvalid, hdvg, hmask]) ?_
      fun hmasks => by simp [hevents, hvalid, hmasks, hdvg]
    rw [hpush]
    exact hstack.pushed hw (by simp [push, hvalid, hdvg, henabled]) hroom
  | pass hvalid hptr hmask hpc hstack =>
    have hdvg : s.rtl.sjoinIsDvg = false := by simp [sjoinIsDvg, hptr]
    refine .answer hother ⟨hvalid.2.2, rfl⟩ ⟨kept_stack hw (by simp [push, hvalid])
      (by simp [pop, hdvg]) hstack, ?_, ?_⟩ ?_ rfl
    · simpa [next, nextOut, hdvg, hnext, hvalid] using hmask
    · rw [hpcs]
      simpa [next, nextOut, hdvg] using hpc
    · rw [hlog, hevents]
      simp [hvalid, next, nextOut, hdvg]
  | back e stack hvalid hptr hfall hmask hpc hstack hpop =>
    obtain ⟨hdvg, htaken, htmask, htop⟩ := top_entry hstack hptr
    have hstack' := hstack.popped (i := i) hw (by simp [push, hvalid])
      (by simp [pop, hvalid, hdvg]) hptr
    rw [hfall, if_neg Bool.false_ne_true, ← hpop] at hstack'
    refine .answer hother ⟨hvalid.2.2, rfl⟩ ⟨hstack', ?_, ?_⟩ ?_ rfl
    · simp [next, nextOut, hdvg, htaken, hfall, htmask, hmask]
    · simp [next, nextOut, hdvg, htaken, hfall, htop, hpc]
    · rw [hlog, hevents]
      simp [hvalid, next, nextOut, hdvg]
  | restore e hvalid hptr hfall hmask hpc hstack =>
    obtain ⟨hdvg, htaken, htmask, _⟩ := top_entry hstack hptr
    have hstack' := hstack.popped (i := i) hw (by simp [push, hvalid])
      (by simp [pop, hvalid, hdvg]) hptr
    rw [hfall, if_pos rfl] at hstack'
    refine .answer hother ⟨hvalid.2.2, rfl⟩ ⟨hstack', ?_, ?_⟩ ?_ rfl
    · simp [next, nextOut, hdvg, htaken, hfall, htmask, hmask]
    · rw [hpcs]
      simpa [next, nextOut, htaken, hfall] using hpc
    · rw [hlog, hevents]
      simp [hvalid, next, nextOut, hdvg]

theorem Inv.answer_next (h : s.Inv) [Fits] (hw : w < numWarps) {x : SimxWarp}
    (hreg : ¬s.rtl.Commands w) (hout : s.rtl.Answers w) (hanswer : s.rtl.Answer w x)
    (hexec : ∀ e ∈ i.exec, e.1.wid ≠ w) {simxLog rtlLog : List WctlEvent}
    (hlog : simxLog = rtlLog ++ [.join s.rtl.out.isDvg x.tmask x.pc]) :
    (s.rtl.next i).Phase w x none simxLog (rtlLog ++ s.rtl.eventsOf w i) := by
  have hmasks : s.rtl.nextMasks w = x.tmask := by
    rw [quiet_masks hreg]
    simpa [hout] using hanswer.mask
  have hpcs : toFullPC (s.rtl.nextPcs none w) = x.pc := by
    rw [nextPcs_none]
    simpa [hout] using hanswer.pc
  refine .idle (not_or.mpr ⟨nextReg_other hexec, (quiet_reg hreg).2.2⟩) hmasks
    (h.stack_other hw hreg hanswer.stack) ?_ (by simp)
  rw [hlog, quiet_events hreg, if_pos hout, s.rtl.resultOf_of_ne _ hexec, hmasks, hpcs]
  rfl

theorem Inv.phase_next (h : s.Inv) [Fits] (hw : w < numWarps)
    (hlawful : s.Lawful i) (hexec : ∀ e ∈ i.exec, e.1.wid ≠ w) :
    (s.rtl.next i).Phase w (s.simx w).warp (s.begun w)
      (s.simxLog w) (s.rtlLog w ++ s.rtl.eventsOf w i) := by
  have hother := nextReg_other (s := s) hexec
  have hresult := s.rtl.resultOf_of_ne w hexec
  have hfetch : ∀ f ∈ i.fetch, f.1 = w → ¬s.rtl.InFlight w ∧ s.begun w = none :=
    fun f hf heq => heq ▸ ⟨(hlawful.fetch f hf).1, (hlawful.fetch f hf).2.1⟩
  cases h.phase w hw with
  | idle hfree hmask hstack hlog hbegun =>
    have hevents : s.rtl.eventsOf w i = [] := (free_events hfree).trans hresult
    refine .idle (not_or.mpr ⟨hother, free_out hfree⟩) ((free_masks hfree).trans hmask)
      (h.stack_other hw (fun hc => hfree (.inl hc)) hstack) (by rw [hevents, List.append_nil,
        hlog]) ?_
    intro q hq
    have hkept := hbegun q hq
    have htable : (s.rtl.next i).tmaskTable w = s.rtl.tmaskTable w := by
      simp only [next]
      cases hi : i.exec with
      | none => rfl
      | some e => exact update_of_ne (hexec e hi).symm ..
    have hpcs : (s.rtl.next i).warpPcs w = s.rtl.warpPcs w :=
      kept_pcs (fun hc => hfree (.inr hc)) fun f hf heq => by
      rw [(hfetch f hf heq).2] at hq
      cases hq
    have hmasks : (s.rtl.next i).threadMasks w = s.rtl.threadMasks w := free_masks hfree
    exact ⟨by rw [hpcs, hkept.pc], by rw [hmasks, htable]; exact hkept.thens,
      by rw [hmasks, htable]; exact hkept.elses⟩
  | command e hwid hout hcommand hlog hbegun =>
    subst hwid
    have hbusy : s.rtl.InFlight s.rtl.reg.wid := .inl ⟨hcommand.valid, rfl⟩
    rw [hbegun]
    exact command_next hw hout (fun f hf heq => (hfetch f hf heq).1 hbusy) hexec hcommand hlog
  | answer hreg hout hanswer hlog hbegun =>
    rw [hbegun]
    exact h.answer_next hw hreg hout hanswer hexec hlog

section Packet
variable {p : ExecPacket} {x : SimxWarp}

theorem SameInstr.cond {q : ExecPacket} (h : SameInstr p q) : q.trace.cond = p.trace.cond := by
  obtain ⟨_, hneg, _, hrs1, _⟩ := h
  funext t
  change (decide (q.rs1 t % 2 = 1) ^^ q.isCondNeg) = (decide (p.rs1 t % 2 = 1) ^^ p.isCondNeg)
  rw [hneg, hrs1]

section
variable (h : s.Offered p) (hbegun : ∀ q ∈ s.begun p.wid, s.rtl.Begun p.wid q.1 q.2)
include h hbegun

theorem Offered.collects :
    Collects (s.rtl.threadMasks p.wid) p.trace true (insert p.pid (s.done p))
      (s.rtl.thenTmask p) ∧
    Collects (s.rtl.threadMasks p.wid) p.trace false (insert p.pid (s.done p))
      (s.rtl.elseTmask p) := by
  cases hsop : p.sop with
  | true =>
    simp only [thenTmask, elseTmask, done, hsop, if_true]
    exact ⟨(Collects.empty ..).collect h.tmask, (Collects.empty ..).collect h.tmask⟩
  | false =>
    obtain ⟨hsome, hsame⟩ := h.more hsop
    obtain ⟨⟨q, d⟩, hq⟩ := ne_none_iff_exists'.mp hsome
    have hcond := (hsame _ hq).cond.symm
    have hkept := hbegun _ hq
    simp only [thenTmask, elseTmask, done, hsop, Bool.false_eq_true, if_false, hq, map_some,
      getD_some]
    exact ⟨(hkept.thens.of_cond hcond).collect h.tmask,
      (hkept.elses.of_cond hcond).collect h.tmask⟩

theorem Offered.masks (heop : p.eop = true) :
    s.rtl.thenTmask p = p.trace.thenTmask (s.rtl.threadMasks p.wid) ∧
      s.rtl.elseTmask p = p.trace.elseTmask (s.rtl.threadMasks p.wid) := by
  obtain ⟨hthens, helses⟩ := h.collects hbegun
  have hall : ∀ t ∈ s.rtl.threadMasks p.wid, t.val / numLanes ∈ insert p.pid (s.done p) := by
    intro t ht
    rw [mem_insert]
    exact (h.last heop t ht).2
  exact ⟨hthens.complete hall, helses.complete hall⟩

theorem Offered.pc : s.rtl.warpPcs p.wid = p.pc + fromFullPC 4 := by
  cases hsop : p.sop with
  | true => exact (h.first hsop).2
  | false =>
    obtain ⟨hsome, hsame⟩ := h.more hsop
    obtain ⟨q, hq⟩ := ne_none_iff_exists'.mp hsome
    rw [(hbegun q hq).pc, (hsame q hq).2.2.1]

end

theorem Offered.last_thread (h : s.Offered p) (heop : p.eop = true) :
    p.tmask.last = ThreadMask.last (s.rtl.threadMasks p.wid) := by
  obtain ⟨t, ht⟩ := ThreadMask.last_isSome h.nonempty
  have hmem := ThreadMask.last_mem ht
  rw [h.tmask, mem_filter] at hmem
  rw [ht]
  refine (ThreadMask.last_of_max hmem.1 fun t' ht' => ?_).symm
  by_contra hlt
  have hle := (h.last heop t' ht').1
  have hge : t.val / numLanes ≤ t'.val / numLanes := Nat.div_le_div_right (by
    have := not_le.mp hlt
    exact le_of_lt this)
  have hmem' : t' ∈ p.tmask := by
    rw [h.tmask, mem_filter]
    exact ⟨ht', by omega⟩
  exact hlt (ThreadMask.le_last ht hmem')

theorem then_union_else (a : Trace) (m : Mask) : a.thenTmask m ∪ a.elseTmask m = m := by
  ext t
  simp only [WctlTrace.thenTmask, WctlTrace.elseTmask, mem_union, mem_filter]
  cases a.cond t <;> simp

theorem stackPtr_eq (h : StackMatch s.rtl w stack) : s.rtl.stackPtr w = stack.length := by
  have hbound := h.bound
  simp only [stackPtr, enabled, decide_eq_true_eq, h.ptr]
  split_ifs
  · rfl
  · omega

theorem next_valid (s : WarpCtl) (hexec : i.exec = some (p, true)) (heop : p.eop = true) :
    (s.next i).reg = s.nextReg (some (p, true)) ∧ (s.next i).reg.wid = p.wid ∧
      (s.next i).Holds (p.type == .pred) (p.type == .split) (p.type == .join) := by
  simp [next, hexec, nextReg, heop, Holds]

/-- Where the warp of the last packet of an instruction is after the clock. -/
def LastPhase (s : DvSystem) (i : WctlIn) (p : ExecPacket) (x : SimxWarp) : Prop :=
  (s.rtl.next i).Phase p.wid x none (s.simxLog p.wid ++ simxEvents (s.simx p.wid).warp x p.trace)
    (s.rtlLog p.wid ++ s.rtl.eventsOf p.wid i)

section
variable (h : s.Inv) (hp : s.Offered p) (hfetch : ∀ f ∈ i.fetch, f.1 ≠ p.wid)
include h hp

theorem Inv.offered :
    s.rtl.threadMasks p.wid = (s.simx p.wid).warp.tmask ∧
    StackMatch s.rtl p.wid (s.simx p.wid).warp.ipdomStack ∧
      s.simxLog p.wid = s.rtlLog p.wid ∧ ∀ q ∈ s.begun p.wid, s.rtl.Begun p.wid q.1 q.2 := by
  cases h.phase p.wid hp.wid with
  | idle hfree hmask hstack hlog hbegun => exact ⟨hmask, hstack, hlog, hbegun⟩
  | command e hwid hout hcommand => exact absurd (.inl ⟨hcommand.valid, hwid⟩) hp.released
  | answer hreg hout => exact absurd (.inr hout) hp.released

section
variable [Fits]
include hfetch

theorem Inv.offered_next {fire : Bool} (hexec : i.exec = some (p, fire)) :
    (s.rtl.next i).threadMasks p.wid = (s.simx p.wid).warp.tmask ∧
      StackMatch (s.rtl.next i) p.wid (s.simx p.wid).warp.ipdomStack ∧
      (s.rtl.next i).warpPcs p.wid = p.pc + fromFullPC 4 ∧
      Collects (s.rtl.threadMasks p.wid) p.trace true (insert p.pid (s.done p))
        ((s.rtl.next i).tmaskTable p.wid).2 ∧
      Collects (s.rtl.threadMasks p.wid) p.trace false (insert p.pid (s.done p))
        ((s.rtl.next i).tmaskTable p.wid).1 := by
  obtain ⟨hmask, hstack, _, hbegun⟩ := h.offered hp
  have htable : (s.rtl.next i).tmaskTable p.wid = (s.rtl.elseTmask p, s.rtl.thenTmask p) := by
    simp [next, hexec, nextTable]
  obtain ⟨hthens, helses⟩ := hp.collects hbegun
  refine ⟨(free_masks hp.released).trans hmask,
    h.stack_other hp.wid (fun hc => hp.released (.inl hc)) hstack,
    (kept_pcs (fun hc => hp.released (.inr hc)) hfetch).trans (hp.pc hbegun), ?_, ?_⟩
  · rw [htable]
    exact hthens
  · rw [htable]
    exact helses

theorem Inv.wait_next (hexec : i.exec = some (p, false)) :
    (s.rtl.next i).Phase p.wid (s.simx p.wid).warp (s.begun p.wid) (s.simxLog p.wid)
      (s.rtlLog p.wid ++ s.rtl.eventsOf p.wid i) := by
  obtain ⟨hmask, _, hlog, _⟩ := h.offered hp
  obtain ⟨hmask', hstack', hpc', hthens, helses⟩ := h.offered_next hp hfetch hexec
  have hevents : s.rtl.eventsOf p.wid i = [] := by
    rw [free_events hp.released]
    simp [resultOf, hexec, results]
  refine .idle (not_or.mpr ⟨?_, free_out hp.released⟩) hmask' hstack' (by rw [hevents,
    List.append_nil, hlog]) ?_
  · simp [next, hexec, nextReg]
  intro q hq
  cases hsop : p.sop with
  | true =>
    rw [(hp.first hsop).1] at hq
    cases hq
  | false =>
    have hsame := (hp.more hsop).2 q hq
    have hdone : q.2 ⊆ insert p.pid (s.done p) := by
      rw [show s.done p = q.2 by simp [done, hsop, mem_def.mp hq]]
      exact subset_insert ..
    have hmasks : (s.rtl.next i).threadMasks p.wid = s.rtl.threadMasks p.wid :=
      hmask'.trans hmask.symm
    have hthens := hthens.mono hdone
    have helses := helses.mono hdone
    rw [← hmasks] at hthens helses
    exact ⟨by rw [hpc', hsame.2.2.1], hthens.of_cond hsame.cond, helses.of_cond hsame.cond⟩

theorem Inv.more_next (hexec : i.exec = some (p, true)) (heop : p.eop = false) :
    (s.rtl.next i).Phase p.wid ((s.simx p.wid).warp.fetched p.trace) (some (p,
      insert p.pid (s.done p)))
      (s.simxLog p.wid ++ simxEvents (s.simx p.wid).warp ((s.simx p.wid).warp.fetched p.trace)
        p.trace) (s.rtlLog p.wid ++ s.rtl.eventsOf p.wid i) := by
  obtain ⟨hmask, hstack, hlog, _⟩ := h.offered hp
  obtain ⟨hmask', hstack', hpc', hthens, helses⟩ := h.offered_next hp hfetch hexec
  have hmasks : (s.rtl.next i).threadMasks p.wid = s.rtl.threadMasks p.wid :=
    hmask'.trans hmask.symm
  refine .idle (not_or.mpr ⟨?_, free_out hp.released⟩) hmask' hstack' ?_ ?_
  · simp [next, hexec, nextReg, heop]
  · rw [free_events hp.released, resultOf_exec _ hexec, stackPtr_eq hstack, hlog]
    simp only [simxEvents, ExecPacket.trace_type, ExecPacket.trace_eop, heop, Bool.false_eq_true,
      if_false]
    cases p.type <;> rfl
  · intro q hq
    cases hq
    rw [← hmasks] at hthens helses
    exact ⟨hpc', hthens, helses⟩

end

variable (hexec : i.exec = some (p, true)) (heop : p.eop = true)
include hexec heop

theorem Inv.commanded {e : WctlEvent} (hcommand : (s.rtl.next i).Command p.wid x e)
    (hevents : simxEvents (s.simx p.wid).warp x p.trace = s.rtl.resultOf p.wid i ++ [e]) :
    s.LastPhase i p x := by
  refine .command e (next_valid s.rtl hexec heop).2.1 (free_out hp.released) hcommand ?_ rfl
  rw [hevents, free_events hp.released, (h.offered hp).2.2.1, List.append_assoc]

include hfetch
variable [Fits] (hx : (s.simx p.wid).warp.process p.trace = some x)
include hx

theorem Inv.split_next (htype : p.type = .split) : s.LastPhase i p x := by
  obtain ⟨hmask, hstack, -, hbegun⟩ := h.offered hp
  obtain ⟨hmask', hstack', -, -, -⟩ := h.offered_next hp hfetch hexec
  have hsimx := h.simx p.wid hp.wid
  obtain ⟨hthen, helse⟩ := hp.masks hbegun heop
  rw [hmask] at hthen helse
  obtain ⟨hreg, -, hvalid⟩ := next_valid s.rtl hexec heop
  rw [htype] at hvalid
  have hevents : simxEvents (s.simx p.wid).warp x p.trace = s.rtl.resultOf p.wid i ++
      [.split (p.trace.isDivergent (s.simx p.wid).warp.tmask) x.tmask] := by
    rw [resultOf_exec _ hexec, stackPtr_eq hstack, if_pos htype]
    simp [simxEvents, htype, heop]
  have hdvg : (s.rtl.split p).isDvg = p.trace.isDivergent (s.simx p.wid).warp.tmask := by
    simp only [split, hthen, helse, WctlTrace.isDivergent, Bool.decide_and, nonempty_iff_ne_empty]
  cases hdiv : p.trace.isDivergent (s.simx p.wid).warp.tmask with
  | false =>
    cases hx.symm.trans (Warp.split_uniform heop htype hdiv)
    rw [hdiv] at hevents
    refine h.commanded hp hexec heop (.uniform hvalid ?_ hmask' hstack') hevents
    rw [hreg]
    exact hdvg.trans hdiv
  | true =>
    have hroom : (s.simx p.wid).warp.ipdomStack.length + 1 < numThreads := by
      have hdepth := hsimx.sound.depth
      have htwo := WctlTrace.divergent_card hdiv
      omega
    cases hx.symm.trans (Warp.split_divergent heop htype hdiv (by omega))
    rw [hdiv] at hevents
    have hfirst : (s.rtl.split p).thenTmask = p.trace.firstTmask (s.simx p.wid).warp.tmask := by
      simp only [split, hthen, helse, WctlTrace.firstTmask]
    have hunion : (s.rtl.split p).thenTmask ∪ (s.rtl.split p).elseTmask =
        (s.simx p.wid).warp.tmask := by
      simp only [split, hthen, helse]
      split_ifs
      · exact then_union_else ..
      · rw [union_comm]
        exact then_union_else ..
    refine h.commanded hp hexec heop
      (.split (s.simx p.wid).warp.ipdomStack hvalid ?_ ?_ hstack' hroom ?_) hevents
    · rw [hreg]
      exact hdvg.trans hdiv
    · rw [hreg]
      exact hfirst
    · rw [hreg]
      simp only [nextReg, hunion]
      rw [show (s.rtl.split p).nextPc = p.pc + fromFullPC 4 from rfl, toFullPC_next]
      rfl

theorem Inv.pred_next (htype : p.type = .pred) : s.LastPhase i p x := by
  obtain ⟨hmask, -, -, hbegun⟩ := h.offered hp
  obtain ⟨-, hstack', -, -, -⟩ := h.offered_next hp hfetch hexec
  obtain ⟨hthen, -⟩ := hp.masks hbegun heop
  have hlast := hp.last_thread heop
  rw [hmask] at hthen hlast
  obtain ⟨hreg, -, hvalid⟩ := next_valid s.rtl hexec heop
  rw [htype] at hvalid
  have hpred : p.trace.predTmask (s.simx p.wid).warp.tmask = some (s.rtl.predMask p) := by
    obtain ⟨t, ht⟩ := ThreadMask.last_isSome (h.simx p.wid hp.wid).nonempty
    simp only [WctlTrace.predTmask, predMask, hthen, ← nonempty_iff_ne_empty,
      ExecPacket.lastOf, hlast, ht, map_some, getD_some]
    split_ifs
    · exact congrArg some (inter_eq_right.mpr (filter_subset ..))
    · rfl
  cases hx.symm.trans (Warp.pred_eq heop htype hpred)
  refine h.commanded hp hexec heop (.pred hvalid ?_ hstack') ?_
  · rw [hreg]
    rfl
  · rw [resultOf_exec _ hexec, if_neg (by simp [htype])]
    simp [simxEvents, htype, heop]

theorem Inv.join_next (htype : p.type = .join) : s.LastPhase i p x := by
  obtain ⟨hmask, hstack, -, hbegun⟩ := h.offered hp
  obtain ⟨hmask', hstack', hpc', -, -⟩ := h.offered_next hp hfetch hexec
  have hsimx := h.simx p.wid hp.wid
  obtain ⟨hthen, helse⟩ := hp.masks hbegun heop
  rw [hmask] at hthen helse
  obtain ⟨hreg, -, hvalid⟩ := next_valid s.rtl hexec heop
  rw [htype] at hvalid
  have hunion : (s.rtl.next i).reg.sjoin.tmask = (s.simx p.wid).warp.tmask := by
    rw [hreg]
    simp only [nextReg, sjoin, hthen, helse]
    exact then_union_else ..
  obtain ⟨k, hread, hk⟩ := hsimx.join_depth htype heop hp.nested
  obtain ⟨t, ht⟩ := ThreadMask.last_isSome hsimx.nonempty
  have hrs1 : p.trace.rs1 t = k := hread t (ThreadMask.last_mem ht)
  have hptr : (s.rtl.next i).reg.sjoin.stackPtr = k := by
    have hbound := hstack.bound
    have hwidth : numThreads - 1 < 2 ^ dvStackSizeW := Fits.ptr
    have hlast : p.lastOf p.rs1 = k := by
      rw [ExecPacket.lastOf, hp.last_thread heop, hmask, ht]
      exact hrs1
    rw [hreg]
    simp only [nextReg, sjoin, hlast]
    exact mod_eq_of_lt (by omega)
  have hpc : toFullPC ((s.rtl.next i).warpPcs p.wid) = p.trace.pc + 4 := by
    rw [hpc', toFullPC_next]
    rfl
  have hevents : ∀ d, joinDiverges (s.simx p.wid).warp p.trace = d →
      simxEvents (s.simx p.wid).warp x p.trace =
      s.rtl.resultOf p.wid i ++ [.join d x.tmask x.pc] := by
    rintro _ rfl
    rw [resultOf_exec _ hexec, if_neg (by simp [htype])]
    simp [simxEvents, htype, heop]
  rcases hk with hk | hk
  · cases hx.symm.trans (Warp.join_uniform heop htype ht (hrs1.trans hk))
    exact h.commanded hp hexec heop
      (.pass hvalid (by rw [hptr, hk, hstack'.ptr]) hmask' hpc hstack')
      (hevents _ (by simp [joinDiverges, ht, hrs1, hk]))
  · have hne : p.trace.rs1 t ≠ (s.simx p.wid).warp.ipdomStack.length := by omega
    have hdiverges : joinDiverges (s.simx p.wid).warp p.trace = true := by
      simp [joinDiverges, ht, hne]
    cases hentries : (s.simx p.wid).warp.ipdomStack with
    | nil => simp [hentries] at hk
    | cons e stack =>
      obtain ⟨orig, pc, fallthrough⟩ := e
      have hkstack : k = stack.length := by
        rw [hentries] at hk
        exact succ.inj hk
      rw [hentries] at hstack'
      cases fallthrough with
      | false =>
        cases hx.symm.trans (Warp.join_back heop htype ht hne hentries)
        exact h.commanded hp hexec heop (.back _ stack hvalid (hptr.trans hkstack) rfl
          (by rw [hunion]; rfl) rfl hstack' rfl) (hevents _ hdiverges)
      | true =>
        cases hx.symm.trans (Warp.join_restore heop htype ht hne hentries)
        exact h.commanded hp hexec heop (.restore _ hvalid (hptr.trans hkstack) rfl rfl hpc hstack')
          (hevents _ hdiverges)

theorem Inv.last_next : s.LastPhase i p x := by
  cases htype : p.type with
  | split => exact h.split_next hp hfetch hexec heop hx htype
  | join => exact h.join_next hp hfetch hexec heop hx htype
  | pred => exact h.pred_next hp hfetch hexec heop hx htype

end

end Packet

theorem step_warp {d d' : Divergence numThreads xlen} {a : Trace} {u : Unit}
    (h : d.step a = some (d', u)) : d.warp.process a = some d'.warp := by
  simp only [Divergence.step, map_eq_some_iff] at h
  obtain ⟨x, hx, heq⟩ := h
  rw [hx]
  split at heq
  · split at heq
    · rw [← (Prod.mk.inj heq).1]
      rfl
    · rw [← (Prod.mk.inj heq).1]
      simp only [Divergence.joined]
      split
      · rfl
      · split_ifs <;> rfl
    · rw [← (Prod.mk.inj heq).1]
  · rw [← (Prod.mk.inj heq).1]

theorem Lawful.fetch_ne (hlawful : s.Lawful i) {e : ExecPacket × Bool} (he : i.exec = some e) :
    ∀ f ∈ i.fetch, f.1 ≠ e.1.wid := fun f hf => ((hlawful.fetch f hf).2.2 e he).symm

theorem next_regWid (hlawful : s.Lawful i) :
    (s.rtl.next i).regValid = true → (s.rtl.next i).reg.wid < numWarps := by
  simp only [next]
  cases hi : i.exec with
  | none => simp [nextReg]
  | some e => exact fun _ => (hlawful.exec e hi).wid

theorem Inv.clocked (h : s.Inv) [Fits] (hlawful : s.Lawful i)
    (hexec : ∀ p, i.exec ≠ some (p, true)) :
    Inv (s.clocked (s.rtl.next i) (s.rtl.events i)) where
  regWid := next_regWid hlawful
  simx := h.simx
  phase := by
    intro w hw
    by_cases hpacket : ∃ e ∈ i.exec, e.1.wid = w
    · obtain ⟨⟨p, fire⟩, he, rfl⟩ := hpacket
      cases fire with
      | true => exact absurd he (hexec p)
      | false => exact h.wait_next (hlawful.exec _ he) (hlawful.fetch_ne he) he
    · exact h.phase_next hw hlawful fun e he heq => hpacket ⟨e, he, heq⟩

theorem Inv.accepted (h : s.Inv) [Fits] (hlawful : s.Lawful i) {p : ExecPacket}
    (hexec : i.exec = some (p, true)) : ∃ d, (s.simx p.wid).step p.trace = some (d, ()) ∧
      Inv ((s.clocked (s.rtl.next i) (s.rtl.events i)).executed p d) := by
  have hp := hlawful.exec _ hexec
  obtain ⟨d, hstep, hd⟩ := (h.simx p.wid hp.wid).step hp.nested
  have hx := step_warp hstep
  refine ⟨d, hstep, next_regWid hlawful, ?_, ?_⟩
  · intro w hw
    simp only [executed, update_apply]
    split_ifs
    · exact hd
    · exact h.simx w hw
  · intro w hw
    by_cases hwp : w = p.wid
    · subst hwp
      simp only [executed, update_self]
      cases heop : p.eop with
      | true => exact h.last_next hp (hlawful.fetch_ne hexec) hexec heop hx
      | false =>
        have hmore := h.more_next hp (hlawful.fetch_ne hexec) hexec heop
        have hwarp := some.inj (hx.symm.trans
          (Warp.process_more (a := p.trace) heop (h.simx p.wid hp.wid).nonempty))
        rw [hwarp]
        exact hmore
    · simp only [executed, update_of_ne hwp]
      refine h.phase_next hw hlawful ?_
      intro e he heq
      rw [hexec] at he
      cases he
      exact hwp heq.symm

theorem Inv.step (h : s.Inv) [Fits] (hlawful : s.Lawful i) :
    ∃ t, s.step i = some (t, ()) ∧ t.Inv := by
  have hclock : s.rtl.clock i = some (s.rtl.next i, s.rtl.events i) := by
    rw [clock, if_pos h.asserts]
  by_cases hexec : ∃ p, i.exec = some (p, true)
  · obtain ⟨p, hp⟩ := hexec
    obtain ⟨d, hstep, hd⟩ := h.accepted hlawful hp
    refine ⟨_, ?_, hd⟩
    simp [DvSystem.step, hclock, hp, hstep]
  · refine ⟨_, ?_, h.clocked hlawful fun p hp => hexec ⟨p, hp⟩⟩
    simp only [DvSystem.step, hclock, bind_eq_bind, bind_some]
    split
    · next p hp => exact absurd ⟨p, hp⟩ hexec
    · rfl

structure Start (s : DvSystem) : Prop where
  reg : s.rtl.regValid = false
  out : s.rtl.out.valid = false
  ptr : ∀ w, s.rtl.wrPtr w = 0
  empty : ∀ w, s.rtl.empty w = true
  full : ∀ w, s.rtl.full w = false
  begun : ∀ w, s.begun w = none
  masks : ∀ w, (s.rtl.threadMasks w).Nonempty
  simx : ∀ w, s.simx w = .initial (s.rtl.threadMasks w) (toFullPC (s.rtl.warpPcs w))
  rtlLog : ∀ w, s.rtlLog w = []
  simxLog : ∀ w, s.simxLog w = []

theorem Start.inv (h : s.Start) : s.Inv where
  regWid := fun hvalid => by simp [h.reg] at hvalid
  simx := fun w _ => by
    rw [h.simx w]
    exact Divergence.initial_inv (h.masks w) _
  phase := by
    intro w _
    refine .idle ?_ ?_ ?_ ?_ ?_
    · simp [WarpCtl.InFlight, h.reg, h.out]
    · rw [h.simx w]
      rfl
    · rw [h.simx w]
      exact ⟨h.ptr w, numThreads_pos, trivial, h.empty w,
        fun hfull => by simp [h.full w] at hfull⟩
    · rw [h.rtlLog, h.simxLog]
    · intro q hq
      rw [h.begun w] at hq
      cases hq

/-- What both say about a warp agrees, up to one event that is on its way, and no stack pointer
exceeds its width. -/
structure Agrees (s : DvSystem) (w : ℕ) : Prop where
  log : ∃ es, s.simxLog w = s.rtlLog w ++ es ∧ es.length ≤ 1
  released : ¬s.rtl.InFlight w → s.simxLog w = s.rtlLog w
  ptr : s.rtl.wrPtr w < numThreads ∧ s.rtl.wrPtr w < 2 ^ dvStackSizeW

theorem Command.matches {r : WarpCtl} {x : SimxWarp} {e : WctlEvent}
    (h : r.Command w x e) : ∃ stack, StackMatch r w stack := by
  cases h with
  | pred _ _ hstack | uniform _ _ _ hstack | split _ _ _ _ hstack | pass _ _ _ _ hstack
  | back _ _ _ _ _ _ _ hstack | restore _ _ _ _ _ _ hstack => exact ⟨_, hstack⟩

theorem Inv.agrees (h : s.Inv) [Fits] (hw : w < numWarps) : s.Agrees w := by
  have hwidth : numThreads - 1 < 2 ^ dvStackSizeW := Fits.ptr
  have hptr : ∀ {stack : List Entry}, StackMatch s.rtl w stack →
      s.rtl.wrPtr w < numThreads ∧ s.rtl.wrPtr w < 2 ^ dvStackSizeW := by
    intro stack hstack
    have hbound := hstack.bound
    rw [hstack.ptr]
    exact ⟨hbound, by omega⟩
  cases h.phase w hw with
  | idle hfree hmask hstack hlog hbegun =>
    exact ⟨⟨[], by rw [hlog, List.append_nil], zero_le _⟩, fun _ => hlog, hptr hstack⟩
  | command e hwid hout hcommand hlog hbegun =>
    obtain ⟨stack, hstack⟩ := Command.matches hcommand
    exact ⟨⟨[e], hlog, le_refl _⟩,
      fun hfree => absurd (.inl ⟨hcommand.valid, hwid⟩) hfree, hptr hstack⟩
  | answer hreg hout hanswer hlog hbegun =>
    exact ⟨⟨_, hlog, le_refl _⟩, fun hfree => absurd (.inr hout) hfree, hptr hanswer.stack⟩

def quiet : WctlIn := ⟨none, none⟩

theorem quiet_lawful (s : DvSystem) : s.Lawful quiet :=
  ⟨fun _ hf => (nomatch hf), fun _ he => (nomatch he)⟩

theorem Inv.drain (h : s.Inv) [Fits] : ∃ t outs,
    run DvSystem.step s [quiet, quiet] = some (t, outs) ∧ ∀ w < numWarps,
      t.rtlLog w = s.simxLog w := by
  have hfirst := h.clocked (quiet_lawful s) fun p hp => nomatch hp
  have hsecond := hfirst.clocked (quiet_lawful _) fun p hp => nomatch hp
  have hclock : ∀ {s : DvSystem}, s.Inv →
      s.step quiet = some (s.clocked (s.rtl.next quiet) (s.rtl.events quiet), ()) := by
    intro s hs
    simp only [DvSystem.step, clock, if_pos hs.asserts, bind_eq_bind, bind_some]
    rfl
  refine ⟨_, _, by rw [run_cons _ (hclock h), run_cons _ (hclock hfirst)]; rfl, fun w hw => ?_⟩
  refine ((hsecond.agrees hw).released ?_).symm
  rintro (⟨hvalid, _⟩ | ⟨hvalid, _⟩) <;> exact Bool.false_ne_true hvalid

/-- In any interleaving of the warps the hardware and the simulator take the same decisions. -/
theorem stacks_refine (hfits : Fits) {start : DvSystem} (hstart : start.Start)
    {clocks : List WctlIn} (hlawful : Along step Lawful start clocks) :
    ∃ s outs, run step start clocks = some (s, outs) ∧ (∀ w < numWarps, s.Agrees w) ∧
      ∃ t outs', run step s [quiet, quiet] = some (t, outs') ∧ ∀ w < numWarps,
        t.rtlLog w = s.simxLog w := by
  obtain ⟨s, outs, hrun, hs⟩ := run_keeps (I := Inv) (C := Lawful)
    (fun s i h hlawful => by
      obtain ⟨t, hstep, ht⟩ := h.step hlawful
      exact ⟨t, (), hstep, ht⟩)
    hstart.inv hlawful
  exact ⟨s, outs, hrun, fun w hw => hs.agrees hw, hs.drain⟩

def fresh : DvSystem where
  rtl :=
    { tmaskTable := fun _ => (∅, ∅)
      reg := ⟨false, false, false, 0, ∅, ⟨false, ∅, ∅, 0⟩, ⟨∅, 0⟩⟩
      wrPtr := fun _ => 0
      empty := fun _ => true
      full := fun _ => false
      ram := fun _ => ⟨false, ∅, 0⟩
      out := ⟨false, 0, false, false, ∅, 0⟩
      threadMasks := fun _ => univ
      warpPcs := fun _ => 0 }
  simx := fun _ => .initial univ 0
  begun := fun _ => none
  rtlLog := fun _ => []
  simxLog := fun _ => []

theorem fresh_start : fresh.Start where
  reg := rfl
  out := rfl
  ptr := fun _ => rfl
  empty := fun _ => rfl
  full := fun _ => rfl
  begun := fun _ => rfl
  masks := fun _ => ⟨⟨0, numThreads_pos⟩, mem_univ _⟩
  simx := fun _ => congrArg (Divergence.initial univ) (by simp [fresh, toFullPC])
  rtlLog := fun _ => rfl
  simxLog := fun _ => rfl

/-- An instruction of warp 0 with its active threads and an operand for each thread: it is fetched,
its packets are accepted, and two clocks later the warp goes on. -/
def instrClocks (type : WctlType) (pc : Pc) (tmask rs1 : List ℕ) : List WctlIn :=
  let pids := [0, 1].filter fun pid => tmask.any (· / numLanes = pid)
  let packet (pid : ℕ) : WctlIn := ⟨none, some (⟨0, type, false, pc, pids.head? == some pid,
    pids.getLast? == some pid, pid, univ.filter fun t => t.val / numLanes = pid ∧ t.val ∈ tmask,
    fun t => rs1.getD t 0, fun _ => 0⟩, true)⟩
  ⟨some (0, pc), none⟩ :: pids.map packet ++ [quiet, quiet]

def nestedClocks : List WctlIn :=
  instrClocks .split 0 [0, 1, 2, 3] [1, 0, 0, 0] ++ instrClocks .join 20 [0] [0, 0, 0, 0] ++
  instrClocks .split 4 [1, 2, 3] [0, 1, 0, 0] ++ instrClocks .join 16 [1] [1, 1, 1, 1] ++
  instrClocks .split 8 [2, 3] [0, 0, 1, 0] ++ instrClocks .join 12 [2] [2, 2, 2, 2] ++
  instrClocks .join 12 [3] [2, 2, 2, 2] ++ instrClocks .join 16 [2, 3] [1, 1, 1, 1] ++
  instrClocks .join 20 [1, 2, 3] [0, 0, 0, 0]

end DvSystem

end

namespace DvSystem

abbrev smallWctl (numWarps : ℕ) (h : 0 < numWarps) : WctlConfig :=
  ⟨4, numWarps, 2, 32, 0, by decide, h, by decide, by decide⟩

theorem stacks_refine_small :
    letI := smallWctl 4 (by decide)
    ∃ s outs, run step fresh nestedClocks = some (s, outs) ∧
    (∀ w < 4, s.Agrees w) ∧ ∃ t outs', run step s [quiet, quiet] = some (t, outs') ∧
      ∀ w < 4, t.rtlLog w = s.simxLog w :=
  @stacks_refine (smallWctl 4 _)
  (@Fits.mk (smallWctl 4 _) (by decide +kernel) (.inr (by decide +kernel))) _
    (@fresh_start (smallWctl 4 _)) _ (by decide +kernel)

/-- With five warps the memory has fifteen cells and four address bits, one less than the pointer
and the warp have together. The third entry of a warp lies on its first one, and the outer region
of warp 0 is left with two of its four threads. -/
theorem third_entry_overwrites_first :
    letI := smallWctl 5 (by decide)
    Along step Lawful fresh nestedClocks ∧ fresh.Start ∧ addr 2 0 = addr 0 0 ∧
    (run step fresh nestedClocks).map
        (fun r => ((r.1.simxLog 0).getLast?, (r.1.rtlLog 0).getLast?)) =
      some (some (.join true (univ : Finset (Fin 4)) (24 : BitVec 32)),
        some (.join true ({2, 3} : Finset (Fin 4)) (24 : BitVec 32))) :=
  ⟨by decide +kernel, @fresh_start (smallWctl 5 _), by decide +kernel, by decide +kernel⟩

end DvSystem

end VortexGpu.Rtl

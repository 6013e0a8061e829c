import VortexGpu.HostBalance
import VortexGpu.HostLines
import VortexGpu.CmdRing

/-!
# Transfers and the bounds of buffers

The four transfers check that offset plus size is at most the size of the buffer, in 64-bit
arithmetic, and hand base plus offset to the transfer engine. The check is sound for sums that
stay below `2 ^ 64`. A sum that wraps passes it, and the engine then starts in front of the buffer.
-/

namespace VortexGpu.Api
open Word ByteMem Cp Simx Api.Action Device Work List Nat

inductive Transfer where
  | write (dst : Buffer) (off : Fin (2 ^ 64)) (host : Option Mem) (sz : Fin (2 ^ 64))
  | read (host : Bool) (src : Buffer) (so sz : Fin (2 ^ 64))
  | copy (dst : Buffer) (dOff : Fin (2 ^ 64)) (src : Buffer) (so sz : Fin (2 ^ 64))
  | fill (dst : Buffer) (offset size : Fin (2 ^ 64)) (pattern : Mem) (patternSize : Fin (2 ^ 64))

def DeviceWrites (c : Cmd) (a : ℕ) : Prop :=
  (c.op = .memWrite ∨ c.op = .memCopy) ∧ ∃ i < c.arg2, a = add64 c.arg0 i

def DeviceReads (c : Cmd) (a : ℕ) : Prop :=
  (c.op = .memRead ∨ c.op = .memCopy) ∧ ∃ i < c.arg2, a = add64 c.arg1 i

def Buffer.Contains (b : Buffer) (a : ℕ) : Prop := b.devAddr ≤ a ∧ a < b.devAddr + b.size

namespace Transfer

def call : Transfer → Call
  | .write dst off host sz => .write (some dst) off host sz
  | .read host src so sz => .read host (some src) so sz
  | .copy dst dOff src so sz => .copy (some dst) dOff (some src) so sz
  | .fill dst offset size pattern patternSize =>
    .fillBuffer (some dst) offset size (some pattern) patternSize

/-- The buffer that a transfer may write, and the one it may read. -/
def Writable : Transfer → ℕ → Prop
  | .write dst _ _ _, a => dst.Contains a
  | .read _ _ _ _, _ => False
  | .copy dst _ _ _ _, a => dst.Contains a
  | .fill dst _ _ _ _, a => dst.Contains a

def Readable : Transfer → ℕ → Prop
  | .write _ _ _ _, _ => False
  | .read _ src _ _, a => src.Contains a
  | .copy _ _ src _ _, a => src.Contains a
  | .fill _ _ _ _ _, _ => False

def Within (t : Transfer) (cl : Mem) : Prop :=
  ∀ c ∈ lineCmds cl,
    (∀ a, DeviceWrites c a → t.Writable a) ∧ ∀ a, DeviceReads c a → t.Readable a

/-- Whatever the device answers, and in whatever state the worker runs the closure of a call that
has returned success, every line it submits stays inside the buffers of the call. -/
def Isolated (t : Transfer) : Prop :=
  ∀ (dev : Device) (wa : WaitArgs) (out : Bool) (h : Host) (cmd : Command),
    (t.call.enqueue dev wa out h).result = .success →
    (t.call.enqueue dev wa out h).command = some cmd →
    ∀ (fuel : ℕ) (h₂ : Host) (es : List Effect),
    (cmd.work.run dev fuel h₂).2.effects = h₂.effects ++ es →
      ∀ cl, Effect.submitCl cl ∈ es → t.Within cl

def Accepts : Transfer → Prop
  | .write dst off host sz => ¬(host.isNone ∧ sz.val ≠ 0) ∧ ¬dst.size < add64 off sz
  | .read host src so sz => ¬(host = false ∧ sz.val ≠ 0) ∧ ¬src.size < add64 so sz
  | .copy dst dOff src so sz => ¬dst.size < add64 dOff sz ∧ ¬src.size < add64 so sz
  | .fill dst offset size _ patternSize =>
    patternSize.val ≠ 0 ∧ ¬size.val % patternSize.val ≠ 0 ∧ ¬dst.size < add64 offset size

/-- No sum wraps. A copy of a range onto itself and a fill with a pattern that is larger than a
chunk are never submitted. -/
def NoWrap : Transfer → Prop
  | .write _ off _ sz => off.val + sz.val < 2 ^ 64
  | .read _ _ so sz => so.val + sz.val < 2 ^ 64
  | .copy dst dOff src so sz => dOff.val + sz.val < 2 ^ 64 ∧ so.val + sz.val < 2 ^ 64 ∨
      add64 dst.devAddr dOff = add64 src.devAddr so
  | .fill _ offset size _ patternSize =>
    offset.val + size.val < 2 ^ 64 ∨ kChunkCap < patternSize.val

def work : Transfer → Work
  | .write dst off host sz => .write dst off host sz
  | .read host src so sz => .read host src so sz
  | .copy dst dOff src so sz => .copy dst dOff src so sz
  | .fill dst offset size pattern patternSize =>
    .fill dst offset size (readBytes pattern 0 patternSize)

theorem call_work (t : Transfer) (dev : Device) (h : Host) {w : Work} :
    t.call.work dev h = some w ↔ t.Accepts ∧ t.work = w := by
  cases t <;> simp only [call, Call.work, Accepts, work, Option.ite_none_left_eq_some,
    Option.some.injEq, and_assoc, ne_eq]

variable {n base dst src chunk size : ℕ} {t : Transfer} {L : Mem → Prop} {h : Host}
  {es : List Effect} {dev : Device} {staging : Mem}

theorem contains_of_le {b : Buffer} {off i : ℕ} (hle : off + n ≤ b.size) (hi : i < n) :
    b.Contains (add64 (add64 b.devAddr off) i) := by
  have hb := b.inside
  have hsum : add64 (add64 b.devAddr off) i = b.devAddr + off + i := by
    rw [add64_of_lt (by omega : b.devAddr + off < 2 ^ 64), add64_of_lt (by omega)]
  rw [hsum]
  exact ⟨by omega, by omega⟩

theorem exists_not_contains {b : Buffer} {off : ℕ} (ho : off < 2 ^ 64) (hn : 2 ^ 64 ≤ off + n) :
    ∃ i < n, ¬b.Contains (add64 (add64 b.devAddr off) i) := by
  have hs := b.size_lt
  refine ⟨2 ^ 64 - 1 - off, by omega, ?_⟩
  intro hc
  obtain ⟨hlo, hhi⟩ := hc
  unfold add64 at hlo hhi
  omega

theorem lineCmds_transfer {opcode : ℕ} (hop : opcode ∈ [0x01, 0x02, 0x03])
    {arg0 arg1 arg2 : ℕ} : lineCmds (cmdLine opcode 0 arg0 arg1 arg2) =
      [⟨opcode, 0, 0, arg0 % 2 ^ 64, arg1 % 2 ^ 64, arg2 % 2 ^ 64⟩] := by
  have hpad : isPadding (cmdLine opcode 0 arg0 arg1 arg2) 28 = true := by
    simp [isPadding, cmdLine_behind]
  obtain rfl | rfl | rfl : opcode = 1 ∨ opcode = 2 ∨ opcode = 3 := by simpa using hop
  all_goals exact lineCmds_cmdLine _ _ _ (by decide) (by decide) (by decide) hpad

theorem add64_mod (a i : ℕ) : add64 (a % 2 ^ 64) i = add64 a i := by
  unfold add64
  omega

theorem forall_span {P : ℕ → Prop} :
    (∀ a, (∃ i < n, a = add64 base i) → P a) ↔ ∀ i < n, P (add64 base i) := by
  constructor
  · intro h i hi
    exact h _ ⟨i, hi, rfl⟩
  · rintro h _ ⟨i, hi, rfl⟩
    exact h i hi

theorem within_transfer {opcode : ℕ} (hop : opcode ∈ [0x01, 0x02, 0x03]) (hn : n < 2 ^ 64) :
    t.Within (cmdLine opcode 0 dst src n) ↔
      (opcode ≠ opMemRead → ∀ i < n, t.Writable (add64 dst i)) ∧
      (opcode ≠ opMemWrite → ∀ i < n, t.Readable (add64 src i)) := by
  unfold Within
  rw [lineCmds_transfer hop]
  obtain rfl | rfl | rfl : opcode = 1 ∨ opcode = 2 ∨ opcode = 3 := by simpa using hop
  all_goals
    simp only [mem_singleton, forall_eq, DeviceWrites, DeviceReads, Cmd.op, Op.ofByte,
      mod_eq_of_lt hn, add64_mod, reduceCtorEq, or_false, or_true, true_and, false_and, forall_span]
    simp [opMemRead, opMemWrite]

theorem within_write {cpAddr : ℕ} (hn : n < 2 ^ 64) :
    t.Within (cmdLine opMemWrite 0 dst cpAddr n) ↔ ∀ i < n, t.Writable (add64 dst i) :=
  (within_transfer (by decide) hn).trans (by simp [opMemWrite, opMemRead])

theorem within_read {cpAddr : ℕ} (hn : n < 2 ^ 64) :
    t.Within (cmdLine opMemRead 0 cpAddr src n) ↔ ∀ i < n, t.Readable (add64 src i) :=
  (within_transfer (by decide) hn).trans (by simp [opMemWrite, opMemRead])

theorem within_copy (hn : n < 2 ^ 64) : t.Within (cmdLine opMemCopy 0 dst src n) ↔
      (∀ i < n, t.Writable (add64 dst i)) ∧ ∀ i < n, t.Readable (add64 src i) :=
  (within_transfer (by decide) hn).trans (by simp [opMemCopy, opMemWrite, opMemRead])

theorem effects_releaseAll (h : Host) (os : List Obj) : (h.releaseAll os).effects = h.effects := by
  induction os generalizing h with
  | nil => rfl
  | cons o _ ih => exact ih (h.release o)

theorem thenRelease_lines {a : Action} (ha : Submits L a) {os : List Obj}
    (hes : (thenRelease a os h).2.effects = h.effects ++ es) :
    ∀ cl, Effect.submitCl cl ∈ es → L cl := by
  obtain ⟨_, es', hes', hL⟩ := ha h
  rw [thenRelease, effects_releaseAll, hes', append_cancel_left_eq] at hes
  exact hes ▸ hL

theorem fillLoop_lines (hL : ∀ done n cpAddr, n ≠ 0 → n ≤ chunk → done + n ≤ size →
      L (cmdLine opMemWrite 0 (add64 base done) cpAddr n)) (fuel done : ℕ) (h : Host) :
    ∃ es, (fillLoop dev base chunk size staging fuel done h).2.effects = h.effects ++ es ∧
      ∀ cl, Effect.submitCl cl ∈ es → L cl := by
  induction fuel generalizing done h with
  | zero => exact ⟨[], by simp [fillLoop], by simp⟩
  | succ fuel ih =>
    rw [fillLoop]
    dsimp only
    have hw : Submits L (dev.devWrite (add64 base done) (some staging) (min chunk (size - done))) :=
      Submits.cpSubmitMemWrite fun hne cpAddr =>
        hL done _ cpAddr hne (Nat.min_le_left _ _) (by omega)
    obtain ⟨_, es, hes, hLes⟩ := hw h
    split_ifs
    · exact ⟨[], by simp, by simp⟩
    · exact ⟨es, hes, hLes⟩
    · obtain ⟨es', hes', hLes'⟩ :=
        ih (add64 done chunk) (dev.devWrite (add64 base done) (some staging)
        (min chunk (size - done)) h).2
      refine ⟨es ++ es', by rw [hes', hes, append_assoc], fun cl hcl => ?_⟩
      exact (mem_append.mp hcl).elim (hLes cl) (hLes' cl)

theorem fillChunk_of_lt {patLen : ℕ} (h : kChunkCap < patLen) : fillChunk size patLen = 0 := by
  rw [fillChunk, mod_eq_of_lt h, Nat.sub_self, Nat.zero_min]

theorem fillChunk_pos {patLen : ℕ} (h : patLen ≤ kChunkCap) (hpos : 0 < patLen)
    (hs : 0 < size) : 0 < fillChunk size patLen := by
  have hmod := mod_lt kChunkCap hpos
  rw [fillChunk]
  omega

theorem fill_run_effects (dev : Device) (dst : Buffer) (offset size : ℕ) (pat : List UInt8)
    (fuel : ℕ) (h : Host) : ((Work.fill dst offset size pat).run dev fuel h).2.effects =
      (fillLoop dev (add64 dst.devAddr offset) (fillChunk size pat.length) size
        (fun i => pat.getD (i % pat.length) 0) fuel 0 h).2.effects := by
  rw [Work.run]
  dsimp only
  split_ifs <;> rfl

theorem fill_lines {dst : Buffer} {offset : ℕ} {pat : List UInt8}
    (hL : ∀ done n cpAddr, n ≠ 0 → n ≤ fillChunk size pat.length → done + n ≤ size →
      L (cmdLine opMemWrite 0 (add64 (add64 dst.devAddr offset) done) cpAddr n))
    {fuel : ℕ}
    (hes : ((Work.fill dst offset size pat).run dev fuel h).2.effects = h.effects ++ es) :
    ∀ cl, Effect.submitCl cl ∈ es → L cl := by
  obtain ⟨es', hes', hL'⟩ := fillLoop_lines hL fuel 0 h
  rw [fill_run_effects, hes', append_cancel_left_eq] at hes
  exact hes ▸ hL'

theorem run_within (ha : t.Accepts) (hn : t.NoWrap) {fuel : ℕ}
    (hes : (t.work.run dev fuel h).2.effects = h.effects ++ es) :
    ∀ cl, Effect.submitCl cl ∈ es → t.Within cl := by
  cases t with
  | write dst off host sz =>
    obtain ⟨_, hsz⟩ := ha
    rw [add64_of_lt hn, not_lt] at hsz
    refine thenRelease_lines (Submits.cpSubmitMemWrite fun _ cpAddr => ?_) hes
    exact (within_write sz.isLt).mpr fun i hi => contains_of_le hsz hi
  | read host src so sz =>
    obtain ⟨_, hsz⟩ := ha
    rw [add64_of_lt hn, not_lt] at hsz
    refine thenRelease_lines (Submits.cpSubmitMemRead fun _ cpAddr => ?_) hes
    exact (within_read sz.isLt).mpr fun i hi => contains_of_le hsz hi
  | copy dst dOff src so sz =>
    obtain ⟨hdst, hsrc⟩ := ha
    refine thenRelease_lines (Submits.cpSubmitMemCopy fun _ hne => ?_) hes
    obtain ⟨hd, hs⟩ := hn.resolve_right hne
    rw [add64_of_lt hd, not_lt] at hdst
    rw [add64_of_lt hs, not_lt] at hsrc
    exact (within_copy sz.isLt).mpr ⟨fun i hi => contains_of_le hdst hi,
      fun i hi => contains_of_le hsrc hi⟩
  | fill dst offset size pattern patternSize =>
    obtain ⟨_, _, hsz⟩ := ha
    refine fill_lines (fun done n cpAddr hne hle hin => ?_) hes
    rw [length_readBytes] at hle
    refine (within_write (by omega)).mpr fun i hi => ?_
    rcases hn with hn | hn
    · rw [add64_of_lt hn, not_lt] at hsz
      rw [add64_add64]
      exact contains_of_le hsz (by omega)
    · rw [fillChunk_of_lt hn] at hle
      exact absurd hle (by omega)

theorem enqueue_of_accepts (ha : t.Accepts) (wa : WaitArgs) (hwa : wa.accepted = true)
    (dev : Device) (out : Bool) (h : Host) :
    ∃ cmd, (t.call.enqueue dev wa out h).result = .success ∧
      (t.call.enqueue dev wa out h).command = some cmd ∧ cmd.work = t.work := by
  obtain ⟨hres, hcmd, _⟩ := accepted_refs out ((t.call_work dev h).mpr ⟨ha, rfl⟩) hwa
  exact ⟨_, hres, hcmd, rfl⟩

theorem not_isolated_of_line (ha : t.Accepts) (fuel : ℕ) (h : Host) {cl : Mem}
    (hes : (t.work.run readyDevice fuel h).2.effects = h.effects ++ es)
    (hcl : Effect.submitCl cl ∈ es) (hout : ¬t.Within cl) : ¬t.Isolated := by
  intro hiso
  obtain ⟨cmd, hres, hcmd, hwork⟩ :=
    enqueue_of_accepts ha ⟨0, none, by decide⟩ rfl readyDevice false h
  rw [← hwork] at hes
  exact hout (hiso readyDevice _ false h cmd hres hcmd fuel h es hes cl hcl)

theorem ready_memWrite (dst : ℕ) (src : Mem) (hn : n ≠ 0) (h : Host) :
    (readyDevice.cpSubmitMemWrite dst (some src) n false h).1 = .success ∧
      (readyDevice.cpSubmitMemWrite dst (some src) n false h).2.effects = h.effects ++
        [.hostMemAlloc n, .hostMemStore 0 (readBytes src 0 n),
          .submitCl (cmdLine opMemWrite 0 dst 0 n), .hostMemFree 0] := by
  simp [cpSubmitMemWrite, hn, withStaging, cpSubmitMem, cpSubmitCl, Action.perform,
    Host.notify, Host.perform, readyDevice]

theorem ready_memRead (hn : n ≠ 0) (h : Host) :
    (readyDevice.cpSubmitMemRead true src n false h).2.effects = h.effects ++
        [.hostMemAlloc n, .submitCl (cmdLine opMemRead 0 0 src n), .hostMemFree 0] := by
  simp [cpSubmitMemRead, hn, withStaging, cpSubmitMem, cpSubmitCl, Action.perform,
    Host.notify, Host.perform, readyDevice]

theorem ready_memCopy (hn : n ≠ 0) (hne : dst ≠ src) (h : Host) :
    (readyDevice.cpSubmitMemCopy dst src n h).2.effects = h.effects ++
      [.submitCl (cmdLine opMemCopy 0 dst src n)] := by
  simp [cpSubmitMemCopy, hn, hne, cpSubmitMem, cpSubmitCl, Action.perform, Host.perform]

theorem fillLoop_round {done : ℕ} (hc : 0 < chunk) (hd : done < size)
    (fuel : ℕ) (h : Host) : fillLoop readyDevice base chunk size staging (fuel + 1) done h =
      fillLoop readyDevice base chunk size staging fuel (add64 done chunk)
        (readyDevice.devWrite (add64 base done) (some staging) (min chunk (size - done)) h).2 := by
  have hres :=
    (ready_memWrite (add64 base done) staging (by omega : min chunk (size - done) ≠ 0) h).1
  rw [fillLoop, if_neg (by omega)]
  dsimp only
  rw [devWrite, hres, if_neg (by simp)]

theorem fillLoop_reaches (hc : 0 < chunk) (hs : size < 2 ^ 64) (k : ℕ)
    {done : ℕ} (hk : done + k * chunk < size) (h : Host) :
    ∃ es, (fillLoop readyDevice base chunk size staging (k + 1) done h).2.effects =
      h.effects ++ es ∧ Effect.submitCl (cmdLine opMemWrite 0 (add64 base (done + k * chunk)) 0
        (min chunk (size - (done + k * chunk)))) ∈ es := by
  have hd : done < size := by omega
  have heff :=
    (ready_memWrite (add64 base done) staging (by omega : min chunk (size - done) ≠ 0) h).2
  rw [fillLoop_round hc hd]
  induction k generalizing done h with
  | zero =>
    rw [zero_mul, add_zero]
    exact ⟨_, heff, by simp⟩
  | succ k ih =>
    have hsucc : (k + 1) * chunk = k * chunk + chunk := succ_mul k chunk
    have hd' : done + chunk < size := by omega
    obtain ⟨es, hes, hmem⟩ := ih (by omega) _ hd' (ready_memWrite _ staging (by omega) _).2
    rw [show done + chunk + k * chunk = done + (k + 1) * chunk by omega] at hmem
    rw [add64_of_lt (by omega), fillLoop_round hc hd', hes, devWrite, heff, append_assoc]
    exact ⟨_, rfl, mem_append_right _ hmem⟩

theorem fill_reaches (dst : Buffer) {offset i : ℕ} {pat : List UInt8}
    (hc : 0 < fillChunk size pat.length) (hs : size < 2 ^ 64) (hi : i < size) (h : Host) :
    ∃ fuel es done n, ((Work.fill dst offset size pat).run readyDevice fuel h).2.effects =
      h.effects ++ es ∧
      Effect.submitCl (cmdLine opMemWrite 0 (add64 (add64 dst.devAddr offset) done) 0 n) ∈ es ∧
      done ≤ i ∧ i < done + n ∧ n ≤ size := by
  have hdm := div_add_mod' i (fillChunk size pat.length)
  have hmod := mod_lt i hc
  have hk : 0 + i / fillChunk size pat.length * fillChunk size pat.length < size := by omega
  obtain ⟨es, hes, hmem⟩ := fillLoop_reaches hc hs _ hk h
  refine ⟨_, es, _, _, (fill_run_effects _ _ _ _ _ _ _).trans hes, hmem, ?_, ?_, ?_⟩
  all_goals omega

theorem not_isolated_of_wrap (ha : t.Accepts) (hn : ¬t.NoWrap) : ¬t.Isolated := by
  cases t with
  | write dst off host sz =>
    have hwrap := Nat.not_lt.mp hn
    have ho := off.isLt
    have hsz : sz.val ≠ 0 := by omega
    cases host with
    | none => exact absurd ⟨rfl, hsz⟩ ha.1
    | some src =>
      refine not_isolated_of_line ha 0 sampleHost (ready_memWrite _ src hsz sampleHost).2
        (.tail _ (.tail _ (.head _))) fun hin => ?_
      obtain ⟨i, hi, hnot⟩ := exists_not_contains (b := dst) ho hwrap
      exact hnot ((within_write sz.isLt).mp hin i hi)
  | read host src so sz =>
    have hwrap := Nat.not_lt.mp hn
    have ho := so.isLt
    have hsz : sz.val ≠ 0 := by omega
    cases host with
    | false => exact absurd ⟨rfl, hsz⟩ ha.1
    | true =>
      refine not_isolated_of_line ha 0 sampleHost (ready_memRead hsz sampleHost) (.tail _ (.head _))
        fun hin => ?_
      obtain ⟨i, hi, hnot⟩ := exists_not_contains (b := src) ho hwrap
      exact hnot ((within_read sz.isLt).mp hin i hi)
  | copy dst dOff src so sz =>
    obtain ⟨hwrap, hne⟩ := not_or.mp hn
    have hd := dOff.isLt
    have ho := so.isLt
    have hsz : sz.val ≠ 0 := by omega
    refine not_isolated_of_line ha 0 sampleHost (ready_memCopy hsz hne sampleHost) (.head _)
      fun hin => ?_
    obtain ⟨hwr, hrd⟩ := (within_copy sz.isLt).mp hin
    by_cases hdw : dOff.val + sz.val < 2 ^ 64
    · obtain ⟨i, hi, hnot⟩ :=
        exists_not_contains (b := src) ho (by omega : 2 ^ 64 ≤ so.val + sz.val)
      exact hnot (hrd i hi)
    · obtain ⟨i, hi, hnot⟩ := exists_not_contains (b := dst) hd (Nat.not_lt.mp hdw)
      exact hnot (hwr i hi)
  | fill dst offset size pattern patternSize =>
    obtain ⟨hwrap, hpat⟩ := not_or.mp hn
    have hpos : 0 < patternSize.val := pos_of_ne_zero ha.1
    have ho := offset.isLt
    have hs := size.isLt
    obtain ⟨i, hi, hnot⟩ := exists_not_contains (b := dst) ho (Nat.not_lt.mp hwrap)
    have hc := fillChunk_pos (Nat.not_lt.mp hpat) hpos (by omega : 0 < size.val)
    rw [← length_readBytes pattern 0 patternSize.val] at hc
    obtain ⟨fuel, es, done, n, hes, hmem, hle, hlt, hn⟩ := fill_reaches dst hc hs hi sampleHost
    refine not_isolated_of_line ha fuel sampleHost hes hmem fun hin => hnot ?_
    have hwr := (within_write (by omega)).mp hin (i - done) (by omega)
    rw [add64_add64, Nat.add_sub_cancel' hle] at hwr
    exact hwr

/-- A transfer keeps to its buffers exactly if it is refused or none of its sums wraps. -/
theorem isolated_iff (t : Transfer) : t.Isolated ↔ (t.Accepts → t.NoWrap) := by
  constructor
  · intro hiso ha
    by_contra hn
    exact not_isolated_of_wrap ha hn hiso
  · intro hok dev wa out h cmd _ hcmd fuel h₂ es hes
    obtain ⟨ha, hwork⟩ := (t.call_work dev h).mp (command_work hcmd)
    rw [← hwork] at hes
    exact run_within ha (hok ha) hes

def wrappedWrite : Transfer :=
  .write sampleBuffer ⟨2 ^ 64 - 4, by decide⟩ (some fun _ => 0) ⟨8, by decide⟩

/-- The check sees a sum of four, and the engine writes the four bytes in front of the buffer. -/
theorem write_before_buffer : wrappedWrite.Accepts ∧ ¬wrappedWrite.Isolated := by
  have ha : wrappedWrite.Accepts := by
    refine ⟨by simp, ?_⟩
    simp [add64, sampleBuffer]
  exact ⟨ha, not_isolated_of_wrap ha (by simp [wrappedWrite, NoWrap])⟩

end Transfer

end VortexGpu.Api

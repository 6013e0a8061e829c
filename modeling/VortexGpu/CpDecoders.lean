import VortexGpu.CpFetchRtl

/-!
# The two decoders of a command line

The simulator and the hardware walk a cache line with different size tables: the simulator does not
know the profile slot behind a profiled command and stops after five commands. Behind `k` profiled
commands its offset is `8 * k` bytes before the offset of the hardware, so that the two give the
same commands exactly when the bytes there are the same.
-/

namespace VortexGpu.Rtl
open ByteMem List

def cxxRecord (c : Cp.Cmd) : Record := ⟨c.opcode, c.flags, c.arg0, c.arg1, c.arg2⟩

def stops (buf : Mem) (off : ℕ) : Bool :=
  Cp.clBytes < off + 4 || Cp.isPadding buf off ||
    Cp.clBytes < off + (Cp.decodeCmdBytes buf off).op.size

def cmdsFrom (buf : Mem) : ℕ → ℕ → List Cp.Cmd
  | 0, _ => []
  | n + 1, off =>
    if stops buf off then []
    else Cp.decodeCmdBytes buf off :: cmdsFrom buf n (off + (Cp.decodeCmdBytes buf off).op.size)

theorem unpackFrom_succ (buf : Mem) (n off : ℕ) :
    Cp.unpackFrom buf (n + 1) off = if stops buf off then 0
    else Cp.unpackFrom buf n (off + (Cp.decodeCmdBytes buf off).op.size) + 1 := by
  rw [Cp.unpackFrom]
  by_cases hroom : Cp.clBytes < off + 4
  · rw [if_pos hroom]
    simp [stops, hroom]
  by_cases hpad : Cp.isPadding buf off = true
  · rw [if_pos hpad]
    simp [stops, hpad]
  · rw [if_neg hpad]
    by_cases hfits : Cp.clBytes < off + (Cp.decodeCmdBytes buf off).op.size
    · simp [stops, hfits]
    · simp [stops, hroom, hpad, hfits]

theorem slotCmds_eq_cmdsFrom (buf : Mem) (n k : ℕ) :
    (range (Cp.unpackFrom buf n (Cp.slotOffset buf k))).map (fun i => Cp.slotCmd buf (k + i)) =
      cmdsFrom buf n (Cp.slotOffset buf k) := by
  induction n generalizing k with
  | zero => rfl
  | succ n ih =>
    rw [unpackFrom_succ, cmdsFrom]
    split
    · rfl
    rw [range_succ_eq_map, map_cons, map_map]
    have hrest := ih (k + 1)
    simp only [Cp.slotOffset] at hrest
    rw [← hrest]
    congr 2
    funext i
    rw [Function.comp_apply, Nat.succ_eq_add_one, add_comm i 1, add_assoc]

theorem lineCmds_eq_cmdsFrom (buf : Mem) : Cp.lineCmds buf = cmdsFrom buf Cp.maxCmdsPerCl 0 := by
  have h := slotCmds_eq_cmdsFrom buf Cp.maxCmdsPerCl 0
  simpa [Cp.lineCmds, Cp.unpackCl, Cp.slotOffset] using h

theorem size_of_ofByte {b : ℕ} {op : CpOpcode} (h : CpOpcode.ofByte b = some op) :
    (Cp.Op.ofByte b).size = op.base := by
  unfold CpOpcode.ofByte at h
  split at h <;> cases h <;> rfl

/-- The bytes of a command agree at two places, up to the reserved ones. -/
def SameBytes (b : Mem) (x y : ℕ) : Prop :=
  ∀ t < 28, t ≠ 2 → t ≠ 3 → b (x + t) = b (y + t)

instance (b : Mem) (x y : ℕ) : Decidable (SameBytes b x y) :=
  inferInstanceAs (Decidable (∀ t < 28, t ≠ 2 → t ≠ 3 → b (x + t) = b (y + t)))

variable {b : Mem}

theorem recordAt_eq_iff {x y : ℕ} : recordAt b x = recordAt b y ↔ SameBytes b x y := by
  simp only [recordAt, Record.mk.injEq, UInt8.toNat_inj, readLE_inj, add_assoc]
  constructor
  · rintro ⟨h0, h1, h4, h12, h20⟩ t ht h2 h3
    by_cases hlow : t < 4
    · obtain rfl | rfl : t = 0 ∨ t = 1 := by omega
      · exact h0
      · exact h1
    by_cases ht4 : t < 12
    · simpa [show 4 + (t - 4) = t by omega] using h4 (t - 4) (by omega)
    by_cases ht12 : t < 20
    · simpa [show 12 + (t - 12) = t by omega] using h12 (t - 12) (by omega)
    · simpa [show 20 + (t - 20) = t by omega] using h20 (t - 20) (by omega)
  · intro h
    exact ⟨h 0 (by omega) (by omega) (by omega), h 1 (by omega) (by omega) (by omega),
      fun i hi => h _ (by omega) (by omega) (by omega),
      fun i hi => h _ (by omega) (by omega) (by omega),
      fun i hi => h _ (by omega) (by omega) (by omega)⟩

theorem not_stops_of_same {off off' size : ℕ} {op : CpOpcode} (hle : off' ≤ off)
    (hop : CpOpcode.ofByte (b off).toNat = some op) (hbase : op.base ≤ size)
    (hfits : off + size ≤ clBytes) (hpad : ¬(b off = 0 ∧ b (off + 1) = 0))
    (hsame : SameBytes b off' off) :
    stops b off' = false ∧ (Cp.decodeCmdBytes b off').op.size = op.base := by
  have h0 : b off' = b off := hsame 0 (by omega) (by omega) (by omega)
  have h1 : b (off' + 1) = b (off + 1) := hsame 1 (by omega) (by omega) (by omega)
  have hsize : (Cp.decodeCmdBytes b off').op.size = op.base := by
    rw [Cp.Cmd.op, Cp.decodeCmdBytes, h0, size_of_ofByte hop]
  have hpos := op.base_pos
  simp only [clBytes] at hfits
  refine ⟨?_, hsize⟩
  have hpadding : Cp.isPadding b off' = false := by simpa [Cp.isPadding, h0, h1] using hpad
  have hroom : ¬Cp.clBytes < off' + 4 := by
    rw [Cp.clBytes]
    omega
  have hend : ¬Cp.clBytes < off' + op.base := by
    rw [Cp.clBytes]
    omega
  simp [stops, hsize, hpadding, hroom, hend]

theorem cmdsFrom_eq_nil_iff (buf : Mem) (n off : ℕ) :
    cmdsFrom buf n off = [] ↔ (0 < n → stops buf off = true) := by
  cases n with
  | zero => simp [cmdsFrom]
  | succ n => cases hs : stops buf off <;> simp [cmdsFrom, hs]

theorem records_eq_iff (b : Mem) (fuel off slots n : ℕ) (hslots : 8 * slots ≤ off) :
    (placesFrom b fuel off slots).1.map (fun p => recordAt b p.off) =
        (cmdsFrom b n (off - 8 * slots)).map cxxRecord ↔
      (placesFrom b fuel off slots).1.length ≤ n ∧
      (∀ p ∈ (placesFrom b fuel off slots).1, SameBytes b (p.off - 8 * p.slots) p.off) ∧
      ((placesFrom b fuel off slots).1.length < n →
        stops b ((placesFrom b fuel off slots).2.off -
          8 * (placesFrom b fuel off slots).2.slots) = true) := by
  induction fuel generalizing off slots n with
  | zero => simp [placesFrom, cmdsFrom_eq_nil_iff]
  | succ fuel ih =>
    cases hs : sizeAt b off with
    | none => simp [placesFrom, hs, cmdsFrom_eq_nil_iff]
    | some size =>
      obtain ⟨op, hop, hsize, hfits, hpad⟩ := sizeAt_some hs
      simp only [placesFrom, hs, map_cons, length_cons, forall_mem_cons]
      cases n with
      | zero => simp [cmdsFrom]
      | succ n =>
        by_cases hsame : SameBytes b (off - 8 * slots) off
        · obtain ⟨hgo, hbase⟩ :=
            not_stops_of_same (Nat.sub_le _ _) hop (by omega) hfits hpad hsame
          have hrec : cxxRecord (Cp.decodeCmdBytes b (off - 8 * slots)) = recordAt b off :=
            recordAt_eq_iff.mpr hsame
          have hnext : off - 8 * slots + op.base = off + size - 8 * (slots + slotAt b off) := by
            omega
          have hrest := ih (off + size) (slots + slotAt b off) n (by omega)
          simp [cmdsFrom, hgo, hbase, hnext, hrec, hsame, hrest]
        · have hdiffer : ¬recordAt b off = cxxRecord (Cp.decodeCmdBytes b (off - 8 * slots)) :=
            fun heq => hsame (recordAt_eq_iff.mp heq.symm)
          cases hstop : stops b (off - 8 * slots) <;> simp [cmdsFrom, hstop, hsame, hdiffer]

/-- The line holds at most five commands. The bytes of each are found again 8 bytes before it for
every profile slot passed, and there the simulator finds no command behind the last one. -/
structure ReadsSame (b : Mem) : Prop where
  few : (places b).1.length ≤ Cp.maxCmdsPerCl
  shifted : ∀ p ∈ (places b).1, SameBytes b (p.off - 8 * p.slots) p.off
  ends : (places b).1.length < Cp.maxCmdsPerCl →
    stops b ((places b).2.off - 8 * (places b).2.slots) = true

theorem readsSame_iff (b : Mem) : ReadsSame b ↔ (places b).1.length ≤ Cp.maxCmdsPerCl ∧
    (∀ p ∈ (places b).1, SameBytes b (p.off - 8 * p.slots) p.off) ∧
    ((places b).1.length < Cp.maxCmdsPerCl →
      stops b ((places b).2.off - 8 * (places b).2.slots) = true) :=
  ⟨fun h => ⟨h.1, h.2, h.3⟩, fun h => ⟨h.1, h.2.1, h.2.2⟩⟩

instance (b : Mem) : Decidable (ReadsSame b) := decidable_of_iff' _ (readsSame_iff b)

/-- The header at a place is zero, or of a defined opcode without the profile flag. -/
def PlainAt (b : Mem) (off : ℕ) : Prop :=
  off + 4 ≤ clBytes → (b off = 0 ∧ b (off + 1) = 0) ∨
    (CpOpcode.ofByte (b off).toNat).isSome ∧ slotAt b off = 0

/-- A line whose headers are all plain, up to the one behind the last command. -/
def Plain (b : Mem) : Prop :=
  (∀ p ∈ (places b).1, PlainAt b p.off) ∧ PlainAt b (places b).2.off

theorem stops_of_plainAt {off : ℕ} (hplain : PlainAt b off) (hnone : sizeAt b off = none) :
    stops b off = true := by
  by_cases hroom : off + 4 ≤ clBytes
  · rcases hplain hroom with hpad | ⟨hop, hslot⟩
    · simp [stops, Cp.isPadding, hpad]
    · obtain ⟨op, hop⟩ := Option.isSome_iff_exists.mp hop
      by_cases hpad : b off = 0 ∧ b (off + 1) = 0
      · simp [stops, Cp.isPadding, hpad]
      have hflag : profileFlag (b (off + 1)).toNat = false := by simpa [slotAt] using hslot
      have hcross : clBytes < off + op.base := by
        simpa [sizeAt, hroom, hpad, hop, hflag, CpOpcode.cmdSizeBytes, Option.filter] using hnone
      have hsize : (Cp.decodeCmdBytes b off).op.size = op.base := size_of_ofByte hop
      simp only [clBytes] at hcross
      simp [stops, hsize, Cp.clBytes, hcross]
  · simp only [clBytes] at hroom
    simp [stops, Cp.clBytes, Nat.not_le.mp hroom]

theorem sizeAt_end (b : Mem) {fuel off : ℕ} (slots : ℕ) (hfuel : clBytes ≤ off + 4 * fuel) :
    sizeAt b (placesFrom b fuel off slots).2.off = none := by
  induction fuel generalizing off slots with
  | zero => simp [placesFrom, sizeAt, show ¬off + 4 ≤ clBytes by omega]
  | succ fuel ih =>
    cases hs : sizeAt b off with
    | none => simp [placesFrom, hs]
    | some size =>
      have hbounds := sizeAt_bounds hs
      simpa [placesFrom, hs] using ih _ (by omega)

theorem slots_of_plain {fuel off slots : ℕ}
    (h : ∀ p ∈ (placesFrom b fuel off slots).1, PlainAt b p.off) :
    (∀ p ∈ (placesFrom b fuel off slots).1, p.slots = slots) ∧
      (placesFrom b fuel off slots).2.slots = slots := by
  induction fuel generalizing off with
  | zero => simp [placesFrom]
  | succ fuel ih =>
    cases hs : sizeAt b off with
    | none => simp [placesFrom, hs]
    | some size =>
      obtain ⟨op, -, -, -, hpad⟩ := sizeAt_some hs
      have hbounds := sizeAt_bounds hs
      simp only [placesFrom, hs, forall_mem_cons] at h ⊢
      have hslot := ((h.1 (by omega)).resolve_left hpad).2
      rw [hslot] at h ⊢
      exact ⟨⟨trivial, (ih h.2).1⟩, (ih h.2).2⟩

theorem readsSame_plain_iff (h : Plain b) :
    ReadsSame b ↔ (places b).1.length ≤ Cp.maxCmdsPerCl := by
  obtain ⟨hslots, hend⟩ := slots_of_plain h.1
  refine ⟨ReadsSame.few, fun hfew => ⟨hfew, fun p hp => ?_, fun _ => ?_⟩⟩
  · rw [hslots p hp]
    exact fun _ _ _ _ => rfl
  · rw [places, hend]
    exact stops_of_plainAt h.2 (sizeAt_end b 0 (by decide))

/-- With any timing the walk of a line ends, and its commands are those the simulator executes
exactly if the line reads the same for both. For a line without profile flags whose opcodes are
defined this is the case with five commands or less. -/
theorem decoders_agree_iff {f : VxFetch} {i : FetchIn} (hstate : f.state = .waitR)
    (hvalid : i.rvalid = true) :
    (∃ n, ∀ is, n ≤ is.countP FetchIn.ready → ((f.clock i).walk is).isSome) ∧
    ((∀ is cs, (f.clock i).walk is = some cs →
        cs.map CpCmd.record = (Cp.lineCmds (window i.rdata 0 Cp.clBytes)).map cxxRecord) ↔
      ReadsSame (clData i.rdata)) ∧
    (Plain (clData i.rdata) →
      (ReadsSame (clData i.rdata) ↔ (places (clData i.rdata)).1.length ≤ 5)) := by
  have hnext : f.clock i = { f with line := i.rdata, offset := 0, state := .emit } := by
    simp [VxFetch.clock, hstate, hvalid]
  have hwalk := fun is => VxFetch.walk_spec (f := f.clock i) 16 0 is (by rw [hnext])
    (by rw [hnext]; exact le_refl 64)
  rw [hnext] at hwalk ⊢
  refine ⟨⟨17, fun is hcount => (hwalk is).1 hcount⟩, ?_, readsSame_plain_iff⟩
  have hiff : (places (clData i.rdata)).1.map (fun p => recordAt (clData i.rdata) p.off) =
      (Cp.lineCmds (clData i.rdata)).map cxxRecord ↔ ReadsSame (clData i.rdata) := by
    rw [lineCmds_eq_cmdsFrom, readsSame_iff]
    exact records_eq_iff (clData i.rdata) 16 0 0 Cp.maxCmdsPerCl (by decide)
  rw [← hiff]
  constructor
  · intro h
    obtain ⟨cs, hcs⟩ :=
      Option.isSome_iff_exists.mp ((hwalk (.replicate 17 { i with ready := true })).1
      (by simp))
    exact ((hwalk _).2 cs hcs).symm.trans (h _ cs hcs)
  · exact fun h is cs hcs => ((hwalk is).2 cs hcs).trans h

/-- A launch with the profile flag, whose profile slot is at `0x80000004`. -/
def profiledLine : Mem := fun i => [6, 1, 0, 0, 0, 0, 0, 0, 0, 0, 0, 0, 4, 0, 0, 0x80].getD i 0

def fenceLine : Mem := fun i => if i < 64 ∧ i % 8 = 0 then 7 else 0

/-- A clock in which the memory answers with the line, and in which the engine takes what it is
given. -/
def readyIn (line : Mem) : FetchIn := ⟨true, 64, true, true, line, true⟩

def awaiting : VxFetch := { VxFetch.reset with state := .waitR }

def lineOpcodes (line : Mem) : Option (List ℕ) × List ℕ :=
  (((awaiting.clock (readyIn line)).walk (replicate 17 (readyIn line))).map (·.map CpCmd.opcode),
    (Cp.lineCmds (window line 0 Cp.clBytes)).map Cp.Cmd.opcode)

/-- The simulator takes the profile slot for a register write, and leaves out three of the fences.
-/
theorem decoders_differ : lineOpcodes profiledLine = (some [6], [6, 4]) ∧
    lineOpcodes fenceLine = (some [7, 7, 7, 7, 7, 7, 7, 7], [7, 7, 7, 7, 7]) := by
  decide +kernel

def plainLine : Mem :=
  fun i => [4, 0, 0, 0, 1, 0, 0, 0, 0, 0, 0, 0, 5, 0, 0, 0, 0, 0, 0, 0, 6].getD i 0

theorem decoders_agree_plain : ReadsSame (clData plainLine) ∧
    ∀ is cs, (awaiting.clock (readyIn plainLine)).walk is = some cs → cs.map CpCmd.record =
      (Cp.lineCmds (window plainLine 0 Cp.clBytes)).map cxxRecord := by
  have hsame : ReadsSame (clData plainLine) := by decide +kernel
  exact ⟨hsame, (decoders_agree_iff (i := readyIn plainLine) rfl rfl).2.1.mpr hsame⟩

end VortexGpu.Rtl

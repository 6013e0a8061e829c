import VortexGpu.CmdDecode

/-!
# The fetch unit of the command processor in RTL

The fetch unit reads a line of the ring and walks it: it presents the command at its offset until
the engine takes it, moves the offset behind it, and leaves the line where no command is found.

A command whose header has the profile flag is followed by the 8 bytes of its profile slot, which
count as a part of it.
-/

namespace VortexGpu.Rtl
open ByteMem Option

def clBytes : ℕ := 64

inductive CpOpcode where
  | nop
  | memWrite
  | memRead
  | memCopy
  | dcrWrite
  | dcrRead
  | launch
  | fence
  | eventSignal
  | eventWait
  | cacheFlush
deriving DecidableEq, Repr

namespace CpOpcode

def ofByte : ℕ → Option CpOpcode
  | 0x00 => some nop
  | 0x01 => some memWrite
  | 0x02 => some memRead
  | 0x03 => some memCopy
  | 0x04 => some dcrWrite
  | 0x05 => some dcrRead
  | 0x06 => some launch
  | 0x07 => some fence
  | 0x08 => some eventSignal
  | 0x09 => some eventWait
  | 0x0A => some cacheFlush
  | _ => none

def base : CpOpcode → ℕ
  | nop => 4
  | launch => 12
  | fence => 8
  | cacheFlush => 12
  | dcrWrite => 20
  | dcrRead => 20
  | eventSignal => 20
  | eventWait => 28
  | memWrite => 28
  | memRead => 28
  | memCopy => 28

def cmdSizeBytes (op : CpOpcode) (profiled : Bool) : ℕ := op.base + if profiled then 8 else 0

end CpOpcode

structure CpCmd where
  opcode : ℕ
  flags : ℕ
  reserved : ℕ
  arg0 : ℕ
  arg1 : ℕ
  arg2 : ℕ
  profileSlot : ℕ
deriving DecidableEq, Repr

def profileFlag (flags : ℕ) : Bool := flags % 2 == 1

def clData (line : Mem) : Mem := window line 0 clBytes

def unpack (line : Mem) (off : ℕ) : Option (CpCmd × ℕ) :=
  let cl := clData line
  if off + 4 ≤ clBytes then
    let opcode := (cl off).toNat
    let flags := (cl (off + 1)).toNat
    let profiled := profileFlag flags
    if opcode = 0 ∧ flags = 0 then none
    else match CpOpcode.ofByte opcode with
      | none => none
      | some op =>
        let sz := op.cmdSizeBytes profiled
        if off + sz ≤ clBytes then
          some (⟨opcode, flags, readLE cl (off + 2) 2, readLE cl (off + 4) 8,
            readLE cl (off + 12) 8,
            readLE cl (off + 20) 8, if profiled then readLE cl (off + sz - 8) 8 else 0⟩, sz)
        else none
  else none

inductive FetchState where
  | idle
  | issueAr
  | waitR
  | emit
deriving DecidableEq, Repr

structure VxFetch where
  state : FetchState
  head : ℕ
  line : Mem
  offset : ℕ

/-- What the fetch unit sees in a clock: the queue registers it reads, the memory port and whether
the engine takes a command. -/
structure FetchIn where
  enabled : Bool
  tail : ℕ
  arready : Bool
  rvalid : Bool
  rdata : Mem
  ready : Bool

namespace VxFetch

def reset : VxFetch := ⟨.idle, 0, fun _ => 0, 0⟩

def clock (f : VxFetch) (i : FetchIn) : VxFetch :=
  match f.state with
  | .idle => if i.enabled ∧ f.head < i.tail then { f with state := .issueAr } else f
  | .issueAr => if i.arready then { f with state := .waitR } else f
  | .waitR => if i.rvalid then { f with line := i.rdata, offset := 0, state := .emit } else f
  | .emit => match unpack f.line f.offset with
    | none => { f with head := (f.head + 64) % 2 ^ 64, state := .idle }
    | some (_, size) => if i.ready then { f with offset := (f.offset + size) % 2 ^ 7 } else f

def cmdOut (f : VxFetch) : Option CpCmd :=
  if f.state = .emit then (unpack f.line f.offset).map Prod.fst else none

def emitted (f : VxFetch) (i : FetchIn) : List CpCmd := if i.ready then f.cmdOut.toList else []

/-- The commands taken until the unit leaves its line; `none` if it is still in it at the end. -/
def walk (f : VxFetch) : List FetchIn → Option (List CpCmd)
  | [] => if f.state = .emit then none else some []
  | i :: is => if f.state = .emit then ((f.clock i).walk is).map (f.emitted i ++ ·) else some []

end VxFetch

theorem CpOpcode.base_pos (op : CpOpcode) : 4 ≤ op.base := by cases op <;> decide

/-- The size of the command that starts at a byte of a line by the format of the commands: that of
its opcode, and 8 bytes more with the profile flag. None starts at a zero header or one that is not
defined, or where the line has no room for it. -/
def sizeAt (b : Mem) (off : ℕ) : Option ℕ :=
  if off + 4 ≤ clBytes ∧ ¬(b off = 0 ∧ b (off + 1) = 0) then
    ((CpOpcode.ofByte (b off).toNat).map
      (·.cmdSizeBytes (profileFlag (b (off + 1)).toNat))).filter (off + · ≤ clBytes)
  else none

/-- What a command says, without the reserved bytes and the profile slot. -/
structure Record where
  opcode : ℕ
  flags : ℕ
  arg0 : ℕ
  arg1 : ℕ
  arg2 : ℕ
deriving DecidableEq, Repr

def CpCmd.record (c : CpCmd) : Record := ⟨c.opcode, c.flags, c.arg0, c.arg1, c.arg2⟩

def recordAt (b : Mem) (off : ℕ) : Record :=
  ⟨(b off).toNat, (b (off + 1)).toNat, readLE b (off + 4) 8, readLE b (off + 12) 8,
    readLE b (off + 20) 8⟩

/-- A place in a line, and how many profile slots are before it. -/
structure Place where
  off : ℕ
  slots : ℕ
deriving DecidableEq, Repr

def slotAt (b : Mem) (off : ℕ) : ℕ := if profileFlag (b (off + 1)).toNat then 1 else 0

/-- The places of the commands from an offset on, and where the last one ends. A command takes four
bytes at least, so that `fuel` is a bound on their number. -/
def placesFrom (b : Mem) : ℕ → ℕ → ℕ → List Place × Place
  | 0, off, slots => ([], ⟨off, slots⟩)
  | fuel + 1, off, slots => match sizeAt b off with
    | none => ([], ⟨off, slots⟩)
    | some size =>
      let rest := placesFrom b fuel (off + size) (slots + slotAt b off)
      (⟨off, slots⟩ :: rest.1, rest.2)

def places (b : Mem) : List Place × Place := placesFrom b 16 0 0

variable {b line : Mem} {off size : ℕ}

theorem sizeAt_some (h : sizeAt b off = some size) :
    ∃ op, CpOpcode.ofByte (b off).toNat = some op ∧ size = op.base + 8 * slotAt b off ∧
      off + size ≤ clBytes ∧ ¬(b off = 0 ∧ b (off + 1) = 0) := by
  simp only [sizeAt, ite_none_right_eq_some, filter_eq_some_iff,
    map_eq_some_iff, decide_eq_true_eq] at h
  obtain ⟨⟨-, hpad⟩, ⟨op, hop, rfl⟩, hfits⟩ := h
  refine ⟨op, hop, ?_, hfits, hpad⟩
  rw [CpOpcode.cmdSizeBytes, slotAt]
  split <;> rfl

theorem sizeAt_bounds (h : sizeAt b off = some size) : 4 ≤ size ∧ off + size ≤ clBytes := by
  obtain ⟨op, _, hsize, hfits, _⟩ := sizeAt_some h
  have hpos := op.base_pos
  omega

theorem unpack_spec (line : Mem) (off : ℕ) :
    (sizeAt (clData line) off = none ∧ unpack line off = none) ∨
      ∃ size c, sizeAt (clData line) off = some size ∧ unpack line off = some (c, size) ∧
        c.record = recordAt (clData line) off := by
  have hzero : ∀ x : UInt8, x = 0 ↔ x.toNat = 0 := fun x => (UInt8.toNat_inj (b := 0)).symm
  by_cases hroom : off + 4 ≤ clBytes
  swap
  · exact .inl (by simp [sizeAt, unpack, hroom])
  by_cases hpad : (clData line off).toNat = 0 ∧ (clData line (off + 1)).toNat = 0
  · exact .inl (by simp [sizeAt, unpack, hroom, hzero, hpad])
  cases hop : CpOpcode.ofByte (clData line off).toNat with
  | none => exact .inl (by simp [sizeAt, unpack, hroom, hzero, hpad, hop])
  | some op =>
    by_cases hfits : off + op.cmdSizeBytes (profileFlag (clData line (off + 1)).toNat) ≤ clBytes
    · refine .inr ⟨op.cmdSizeBytes (profileFlag (clData line (off + 1)).toNat), ?_⟩
      simp only [unpack, if_pos hroom, if_neg hpad, hop, if_pos hfits]
      exact ⟨_, by simp [sizeAt, hroom, hzero, hpad, hop, hfits, Option.filter], rfl, rfl⟩
    · exact .inl (by simp [sizeAt, unpack, hroom, hzero, hpad, hop, hfits, Option.filter])

/-- The walk of a line, however the engine takes the commands: it ends, and the commands are those
of the places of the line. -/
theorem VxFetch.walk_spec {f : VxFetch} (fuel slots : ℕ) (is : List FetchIn)
    (hstate : f.state = .emit) (hfuel : clBytes ≤ f.offset + 4 * fuel) :
    (fuel < is.countP FetchIn.ready → (f.walk is).isSome) ∧
    ∀ cs, f.walk is = some cs → cs.map CpCmd.record =
      (placesFrom (clData f.line) fuel f.offset slots).1.map fun p =>
        recordAt (clData f.line) p.off := by
  induction is generalizing f fuel slots with
  | nil => simp [walk, hstate]
  | cons i is ih =>
    rw [walk, if_pos hstate]
    rcases unpack_spec f.line f.offset with ⟨hsize, hu⟩ | ⟨size, c, hsize, hu, hrec⟩
    · have hidle : (f.clock i).state = .idle := by simp [clock, hstate, hu]
      have hnil : (f.clock i).walk is = some [] := by cases is <;> simp [walk, hidle]
      have hnone : f.emitted i = [] := by simp [emitted, cmdOut, hstate, hu]
      cases fuel <;> simp [hnil, hnone, placesFrom, hsize]
    · have hbounds := sizeAt_bounds hsize
      cases hready : i.ready with
      | false =>
        have hsame : f.clock i = f := by simp [clock, hstate, hu, hready]
        simpa [emitted, hready, hsame] using ih _ slots hstate hfuel
      | true =>
        obtain ⟨fuel, rfl⟩ : ∃ n, fuel = n + 1 := Nat.exists_eq_succ_of_ne_zero (by omega)
        have hnext : f.clock i = { f with offset := f.offset + size } := by
          have hoff : (f.offset + size) % 2 ^ 7 = f.offset + size :=
            Nat.mod_eq_of_lt (by simp only [clBytes] at hbounds; omega)
          simp only [clock, hstate, hu, hready, hoff, if_true]
        obtain ⟨hends, hwalk⟩ := ih (f := { f with offset := f.offset + size })
          _ (slots + slotAt (clData f.line) f.offset) hstate
          (show clBytes ≤ f.offset + size + 4 * fuel by omega)
        have hemit : f.emitted i = [c] := by simp [emitted, cmdOut, hready, hstate, hu]
        rw [hnext, hemit, placesFrom, hsize]
        refine ⟨fun hcount => ?_, fun cs hcs => ?_⟩
        · rw [List.countP_cons_of_pos hready] at hcount
          simpa using hends (by omega)
        · obtain ⟨rest, hrest, rfl⟩ := map_eq_some_iff.mp hcs
          simp [hwalk rest hrest, hrec]

end VortexGpu.Rtl

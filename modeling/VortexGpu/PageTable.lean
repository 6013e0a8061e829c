import VortexGpu.Word
import VortexGpu.ByteMem

/-!
# Page tables and the two synchronous walkers

The formats are those of `vm_types.h`, for the two address modes a build can
choose. `pageTableWalk` is the host driver's walk over its shadow of the tables,
`cpTranslate` the command processor's walk over device memory. An outer `none`
is a failed assertion of a constructor.
-/

namespace VortexGpu.Vm
open Word ByteMem

inductive AddrMode where
  | sv32
  | sv39
deriving DecidableEq, Repr

namespace AddrMode

def value : AddrMode → ℕ
  | sv32 => 1
  | sv39 => 8

def ptLevel : AddrMode → ℕ
  | sv32 => 2
  | sv39 => 3

def pteSize : AddrMode → ℕ
  | sv32 => 4
  | sv39 => 8

def vpnBits : AddrMode → ℕ
  | sv32 => 10
  | sv39 => 9

end AddrMode

def pageLog2Size : ℕ := 12
def ptSize : ℕ := 4096

def bits (input s e : ℕ) : ℕ := (input >>> s) &&& (2 ^ (e - s + 1) - 1)

theorem bits_eq (input s e : ℕ) : bits input s e = input / 2 ^ s % 2 ^ (e - s + 1) := by
  rw [bits, Nat.shiftRight_eq_div_pow, land_mask]

theorem bits_lt (input s e : ℕ) : bits input s e < 2 ^ (e - s + 1) := by
  rw [bits_eq]
  exact Nat.mod_lt _ (Nat.two_pow_pos _)

structure Satp where
  mode : ℕ
  asid : ℕ
  ppn : ℕ
  satp : ℕ
deriving DecidableEq, Repr

def Satp.ofValue (m : AddrMode) (satp : ℕ) : Satp :=
  match m with
  | .sv32 => ⟨bits satp 31 31, bits satp 22 30, bits satp 0 21, satp⟩
  | .sv39 => ⟨bits satp 60 63, bits satp 44 59, bits satp 0 43, satp⟩

def Satp.ofAddress (m : AddrMode) (address asid : ℕ) : Option Satp :=
  let ppn := address >>> pageLog2Size
  match m with
  | .sv32 =>
    if address >>> 32 = 0 then
      some ⟨m.value, asid, ppn, shl64 m.value 31 ||| shl64 asid 22 ||| ppn⟩
    else none
  | .sv39 => some ⟨m.value, asid, ppn, shl64 m.value 60 ||| shl64 asid 44 ||| ppn⟩

structure Pte where
  ppn : ℕ
  flags : ℕ
deriving DecidableEq, Repr

namespace Pte

def ofBytes (m : AddrMode) (pteBytes : ℕ) : Pte :=
  match m with
  | .sv32 => ⟨bits pteBytes 10 31, bits pteBytes 0 7⟩
  | .sv39 => ⟨bits pteBytes 10 53, bits pteBytes 0 7⟩

def v (pte : Pte) : Bool := pte.flags.testBit 0
def r (pte : Pte) : Bool := pte.flags.testBit 1
def w (pte : Pte) : Bool := pte.flags.testBit 2
def x (pte : Pte) : Bool := pte.flags.testBit 3

def interior (pte : Pte) : Bool := !pte.r && !pte.w && !pte.x

def invalid (pte : Pte) : Bool := !pte.v || (!pte.r && pte.w)

theorem ppn_lt (m : AddrMode) (b : ℕ) : (ofBytes m b).ppn < 2 ^ 44 := by
  cases m with
  | sv32 =>
    have h := bits_lt b 10 31
    simp only [ofBytes] at h ⊢
    omega
  | sv39 => exact bits_lt b 10 53

end Pte

def VAddr.new (m : AddrMode) (address : ℕ) : Option (ℕ → ℕ) :=
  match m with
  | .sv32 =>
    if address >>> 32 = 0 then
      some (fun | 0 => bits address 12 21 | _ => bits address 22 31)
    else none
  | .sv39 =>
    some (fun | 0 => bits address 12 20 | 1 => bits address 21 29 | _ => bits address 30 38)

def pteAddr (m : AddrMode) (basePpn vpn : ℕ) : ℕ := basePpn * ptSize + vpn * m.pteSize

def readPte (m : AddrMode) (mem : Mem) (addr : ℕ) : ℕ := readLE mem addr m.pteSize

/-- The physical address for a leaf found at a level: the low bits are the offset
inside the (super)page and come from the virtual address. -/
def physAddr (m : AddrMode) (ppn level va : ℕ) : ℕ :=
  let offMask := 2 ^ (pageLog2Size + level * m.vpnBits) - 1
  (shl64 ppn pageLog2Size &&& not64 offMask) ||| (va &&& offMask)

inductive WalkFault where
  | uninitialized
  | invalidEntry
  | noLeaf
  | permission
deriving DecidableEq, Repr

def needTrans (satp : Option Satp) : Bool :=
  match satp with
  | none => false
  | some s => s.mode != 0

def getBasePpn (satp : Option Satp) : ℕ :=
  match satp with
  | none => 0
  | some s => s.ppn

/-- What an entry says: go on in the table at a page, or stop at a page. -/
inductive Step where
  | next (ppn : ℕ)
  | leaf (ppn : ℕ)
deriving DecidableEq, Repr

def hostStep (m : AddrMode) (pteBytes : ℕ) : Except WalkFault Step :=
  let pte := Pte.ofBytes m pteBytes
  if pteBytes % 2 ^ 32 = 0xbaadf00d then .error .uninitialized
  else if pte.invalid then .error .invalidEntry
  else if pte.interior then .ok (.next pte.ppn)
  else if pte.r = false then .error .permission
  else .ok (.leaf pte.ppn)

def pageTableWalkFrom (m : AddrMode) (mem : Mem) (vpn : ℕ → ℕ) (va : ℕ)
    (i curBasePpn : ℕ) : Except WalkFault ℕ :=
  match hostStep m (readPte m mem (pteAddr m curBasePpn (vpn i))) with
  | .error fault => .error fault
  | .ok (.leaf ppn) => .ok (physAddr m ppn i va)
  | .ok (.next ppn) =>
    match i with
    | 0 => .error .noLeaf
    | i + 1 => pageTableWalkFrom m mem vpn va i ppn

def pageTableWalk (m : AddrMode) (mem : Mem) (satp : Option Satp) (va : ℕ) :
    Option (Except WalkFault ℕ) :=
  if needTrans satp then do
    let vpn ← VAddr.new m va
    some (pageTableWalkFrom m mem vpn va (m.ptLevel - 1) (getBasePpn satp))
  else some (.ok va)

/-- `none` is an entry that is not valid, for which the address is passed through. -/
def cpStep (m : AddrMode) (pteBytes : ℕ) : Option Step :=
  let pte := Pte.ofBytes m pteBytes
  if pte.v = false then none
  else if pte.interior then some (.next pte.ppn)
  else some (.leaf pte.ppn)

def cpTranslateFrom (m : AddrMode) (mem : Mem) (vpn : ℕ → ℕ) (va : ℕ)
    (i curBasePpn : ℕ) : ℕ :=
  match cpStep m (readPte m mem (pteAddr m curBasePpn (vpn i))) with
  | none => va
  | some (.leaf ppn) => physAddr m ppn i va
  | some (.next ppn) =>
    match i with
    | 0 => va
    | i + 1 => cpTranslateFrom m mem vpn va i ppn

def cpTranslate (m : AddrMode) (mem : Mem) (satp va : ℕ) (physical : Bool) : Option ℕ :=
  if physical ∨ satp = 0 then some va
  else
    let s := Satp.ofValue m satp
    if s.mode = 0 then some va
    else do
      let vpn ← VAddr.new m va
      some (cpTranslateFrom m mem vpn va (m.ptLevel - 1) s.ppn)

end VortexGpu.Vm

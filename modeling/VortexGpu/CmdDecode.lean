import VortexGpu.ByteMem

/-!
# Command records and cache lines of commands

A command is 4 to 28 bytes: a header with opcode and flags, and up to three
arguments. The ring holds cache lines of 64 bytes, each packed with commands
from its first byte on; a zero header ends the line.

A buffer is a memory that is zero behind its end, which is how the decoder reads
past the end of a line.
-/

namespace VortexGpu.Cp
open ByteMem

def clBytes : ℕ := 64
def maxCmdsPerCl : ℕ := 5

inductive Op where
  | nop
  | memWrite
  | memRead
  | memCopy
  | dcrWrite
  | dcrRead
  | launch
  | fence
  | eventSig
  | eventWait
  | cacheFlush
  | launchQmd
  | draw
  | unknown
deriving DecidableEq, Repr

namespace Op

def ofByte : ℕ → Op
  | 0x00 => nop
  | 0x01 => memWrite
  | 0x02 => memRead
  | 0x03 => memCopy
  | 0x04 => dcrWrite
  | 0x05 => dcrRead
  | 0x06 => launch
  | 0x07 => fence
  | 0x08 => eventSig
  | 0x09 => eventWait
  | 0x0A => cacheFlush
  | 0x0B => launchQmd
  | 0x0C => draw
  | _ => unknown

def size : Op → ℕ
  | nop => 4
  | launch => 12
  | launchQmd => 12
  | draw => 12
  | fence => 8
  | cacheFlush => 12
  | dcrWrite => 20
  | dcrRead => 20
  | eventSig => 20
  | eventWait => 28
  | memWrite => 28
  | memRead => 28
  | memCopy => 28
  | unknown => 4

end Op

structure Cmd where
  opcode : ℕ
  flags : ℕ
  reserved : ℕ
  arg0 : ℕ
  arg1 : ℕ
  arg2 : ℕ
deriving DecidableEq, Repr

namespace Cmd

def zero : Cmd := ⟨0, 0, 0, 0, 0, 0⟩

def op (c : Cmd) : Op := Op.ofByte c.opcode

def isLaunch (c : Cmd) : Bool := c.op == .launch || c.op == .launchQmd

end Cmd

def decodeCmdBytes (buf : Mem) (off : ℕ) : Cmd where
  opcode := (buf off).toNat
  flags := (buf (off + 1)).toNat
  reserved := readLE buf (off + 2) 2
  arg0 := readLE buf (off + 4) 8
  arg1 := readLE buf (off + 12) 8
  arg2 := readLE buf (off + 20) 8

def isPadding (buf : Mem) (off : ℕ) : Bool := buf off == 0 && buf (off + 1) == 0

def unpackFrom (buf : Mem) : ℕ → ℕ → ℕ
  | 0, _ => 0
  | slots + 1, offset =>
    if clBytes < offset + 4 then 0
    else if isPadding buf offset then 0
    else
      let sz := (decodeCmdBytes buf offset).op.size
      if clBytes < offset + sz then 0 else unpackFrom buf slots (offset + sz) + 1

def unpackCl (buf : Mem) : ℕ := unpackFrom buf maxCmdsPerCl 0

def slotOffset (buf : Mem) : ℕ → ℕ
  | 0 => 0
  | slot + 1 => slotOffset buf slot + (decodeCmdBytes buf (slotOffset buf slot)).op.size

def slotCmd (buf : Mem) (slot : ℕ) : Cmd := decodeCmdBytes buf (slotOffset buf slot)

def lineCmds (buf : Mem) : List Cmd := (List.range (unpackCl buf)).map (slotCmd buf)

theorem length_lineCmds (buf : Mem) : (lineCmds buf).length = unpackCl buf := by
  simp [lineCmds]

theorem lineCmds_getElem? {buf : Mem} {slot : ℕ} (h : slot < unpackCl buf) :
    (lineCmds buf)[slot]? = some (slotCmd buf slot) := by
  simp [lineCmds, h]

end VortexGpu.Cp

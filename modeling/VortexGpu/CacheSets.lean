import VortexGpu.AmoUnit

/-!
# Geometry and tag array of a cache bank

`CacheConfig` is the configuration of a SimX cache, as far as its banks read it. An address has,
from its low end, a byte offset in a sector, the sector in the line, the bank, the set and the tag.
A sector is one memory block.
-/

namespace VortexGpu.Cache
open List

inductive ReplPolicy where
  | random | fifo | plru
  deriving DecidableEq, Repr

/-- Sizes are given by their logarithms: `C` the cache, `L` a line, `S` a sector, `W` a word,
`A` the ways of a set and `B` the banks. -/
class CacheConfig where
  C : ℕ
  L : ℕ
  S : ℕ
  W : ℕ
  A : ℕ
  B : ℕ
  addrWidth : ℕ
  writeBack : Bool
  writeReponse : Bool
  mshrSize : ℕ
  latency : ℕ
  replPolicy : ReplPolicy
  isLlc : Bool

structure SectorKey where
  setId : ℕ
  addrTag : ℕ
  sectorId : ℕ
  deriving DecidableEq, Repr

open CacheConfig
variable [CacheConfig]

def indexBits : ℕ := C - (L + A + B)
def linesPerSet : ℕ := 2 ^ A
def sectorsPerLine : ℕ := 2 ^ (L - S)
def blockSize : ℕ := 2 ^ S

def setStart : ℕ := L + B
def tagStart : ℕ := setStart + indexBits
def tagBits : ℕ := addrWidth - tagStart

def addrBankId (addr : ℕ) : ℕ := addr / 2 ^ L % 2 ^ B
def addrSetId (addr : ℕ) : ℕ := addr / 2 ^ setStart % 2 ^ indexBits
def addrTag (addr : ℕ) : ℕ := addr / 2 ^ tagStart % 2 ^ tagBits
def addrSectorId (addr : ℕ) : ℕ := addr / 2 ^ S % 2 ^ (L - S)

def key (addr : ℕ) : SectorKey := ⟨addrSetId addr, addrTag addr, addrSectorId addr⟩

def memAddrSector (bankId : ℕ) (k : SectorKey) : ℕ :=
  k.addrTag % 2 ^ tagBits * 2 ^ tagStart + k.setId % 2 ^ indexBits * 2 ^ setStart +
    bankId % 2 ^ B * 2 ^ L + k.sectorId % 2 ^ (L - S) * 2 ^ S

def lineAddr (addr : ℕ) : ℕ := addr / 2 ^ L * 2 ^ L

structure Sector where
  valid : Bool
  dirty : Bool
  dirtyMask : ℕ
  data : Option MemBlock

namespace Sector

def reset : Sector := ⟨false, false, 0, none⟩

/-- `sector_merge`: the enabled bytes of `src`, if there is one, over those of the sector. -/
def merge (sec : Sector) (src : Option MemBlock) (byteen : ℕ) : Sector :=
  let old := sec.data.getD zeroBlock
  { sec with data := some (src.elim old (mergeBlock old · byteen)) }

def markDirty (sec : Sector) (byteen : ℕ) : Sector :=
  { sec with dirty := true, dirtyMask := sec.dirtyMask ||| byteen }

end Sector

structure Line where
  tag : ℕ
  lruCtr : ℕ
  sectors : ℕ → Sector

namespace Line

def reset (line : Line) : Line := { line with lruCtr := 0, sectors := fun _ => Sector.reset }

def anyValid (line : Line) : Bool := (range sectorsPerLine).any fun i => (line.sectors i).valid

def dirtySectors (line : Line) : List ℕ :=
  (range sectorsPerLine).filter fun i => (line.sectors i).valid && (line.sectors i).dirty

end Line

structure CacheSet where
  lines : ℕ → Line
  fifoPtr : ℕ

namespace CacheSet

def reset : CacheSet := ⟨fun _ => ⟨0, 0, fun _ => Sector.reset⟩, 0⟩

section
variable (set : CacheSet)

def holds (tag way : ℕ) : Bool :=
  (set.lines way).anyValid && decide ((set.lines way).tag = tag)

/-- The way that `tag_match` reports: the last one that holds the tag. -/
def tagMatch (tag : ℕ) : Option ℕ :=
  (range linesPerSet).foldl (fun hit way => if set.holds tag way then some way else hit) none

def findResident (tag : ℕ) : Option ℕ :=
  (range linesPerSet).find? (set.holds tag)

def updateLru (hit : Option ℕ) : CacheSet :=
  { set with lines := fun way =>
      let line := set.lines way
      if line.anyValid then
        { line with lruCtr := if hit = some way then 0 else Word.add32 line.lruCtr 1 }
      else line }

def plruVictim : ℕ :=
  ((range linesPerSet).foldl (fun (best : ℕ × ℕ) way =>
    let line := set.lines way
    if line.anyValid && decide (best.1 ≤ line.lruCtr) then (line.lruCtr, way) else best) (0, 0)).2

def selectVictim (randIdx : ℕ) : ℕ :=
  match (range linesPerSet).find? (fun way => !(set.lines way).anyValid) with
  | some way => way
  | none =>
    match replPolicy with
    | .fifo => set.fifoPtr % linesPerSet
    | .random => randIdx % linesPerSet
    | .plru => set.plruVictim

def setLine (way : ℕ) (line : Line) : CacheSet :=
  { set with lines := Function.update set.lines way line }

def sector (way sectorId : ℕ) : Sector := (set.lines way).sectors sectorId

def setSector (way sectorId : ℕ) (sec : Sector) : CacheSet :=
  set.setLine way { set.lines way with
    sectors := Function.update (set.lines way).sectors sectorId sec }

def hitWay (k : SectorKey) : Option ℕ :=
  (set.tagMatch k.addrTag).filter fun way => (set.sector way k.sectorId).valid

end

end CacheSet

end VortexGpu.Cache

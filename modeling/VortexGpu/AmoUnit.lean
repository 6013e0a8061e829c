import VortexGpu.ByteMem
import VortexGpu.Word

/-!
# Memory operations and the atomic unit of a cache bank

`MemOp` is the operation of a memory request. `amoCompute` is the arithmetic of the atomic
operations. `AmoUnit` is the reservation table that a bank of the last-level cache keeps for
LR and SC: a hart holds at most one entry of a table.
-/

namespace VortexGpu.Cache

inductive MemOp where
  | ld | st | flush
  | amoLr | amoSc
  | amoSwap | amoAdd | amoAnd | amoOr | amoXor | amoMin | amoMax
  deriving DecidableEq, Repr

namespace MemOp

def isAmoRmw : MemOp → Bool
  | amoSwap | amoAdd | amoAnd | amoOr | amoXor | amoMin | amoMax => true
  | _ => false

def isAtomic : MemOp → Bool
  | amoLr | amoSc => true
  | op => op.isAmoRmw

end MemOp

abbrev MemBlock := ByteMem.Mem

def zeroBlock : MemBlock := fun _ => 0

/-- The bytes of `src` that `byteen` enables over those of `old`. -/
def mergeBlock (old src : MemBlock) (byteen : ℕ) : MemBlock := fun b =>
  if byteen.testBit b then src b else old b

structure AmoComputeResult where
  newWord : ℕ
  retWord : ℕ

def signedWord (w v : ℕ) : ℤ :=
  if v % 2 ^ w < 2 ^ (w - 1) then (v % 2 ^ w : ℕ) else (v % 2 ^ w : ℕ) - (2 ^ w : ℕ)

/-- The operation on words of 4 (`width` 2) or 8 bytes; other operations than atomics abort. -/
def amoCompute (op : MemOp) (width oldWord rhs : ℕ) (unsignedMinmax : Bool) :
    Option AmoComputeResult :=
  let w := if width = 2 then 32 else 64
  let a := oldWord % 2 ^ w
  let b := rhs % 2 ^ w
  let less := if unsignedMinmax then decide (a < b)
    else decide (signedWord w oldWord < signedWord w rhs)
  let more := if unsignedMinmax then decide (b < a)
    else decide (signedWord w rhs < signedWord w oldWord)
  let result (new : ℕ) : Option AmoComputeResult := some ⟨new % 2 ^ w, a⟩
  match op with
  | .amoLr => result a
  | .amoSc | .amoSwap => result b
  | .amoAdd => result (a + b)
  | .amoAnd => result (a &&& b)
  | .amoOr => result (a ||| b)
  | .amoXor => result (a ^^^ b)
  | .amoMin => result (if less then a else b)
  | .amoMax => result (if more then a else b)
  | .ld | .st | .flush => none

def amoLoadWord (line : MemBlock) (byteOff width : ℕ) : ℕ :=
  ByteMem.readLE line byteOff (2 ^ width)

def amoStoreWord (line : MemBlock) (byteOff width v : ℕ) : MemBlock :=
  ByteMem.writeBytes line byteOff (ByteMem.bytesLE (2 ^ width) v)

def amoByteen (byteOff width : ℕ) : ℕ := (2 ^ 2 ^ width - 1) <<< byteOff % 2 ^ 64

abbrev AmoUnit := List (ℕ × ℕ)

namespace AmoUnit

def reserve (u : AmoUnit) (hartId lineAddr : ℕ) : AmoUnit :=
  (hartId, lineAddr) :: u.filter (fun e => e.1 ≠ hartId)

def check (u : AmoUnit) (hartId lineAddr : ℕ) : Bool := u.contains (hartId, lineAddr)

def invalidate (u : AmoUnit) (lineAddr exceptHartId : ℕ) : AmoUnit :=
  u.filter fun e => ¬ (e.2 = lineAddr ∧ e.1 ≠ exceptHartId)

def clear (u : AmoUnit) (hartId lineAddr : ℕ) : AmoUnit := u.filter (· ≠ (hartId, lineAddr))

end AmoUnit

end VortexGpu.Cache

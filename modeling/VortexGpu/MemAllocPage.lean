import VortexGpu.Word
import VortexGpu.IntrusiveList
import VortexGpu.Tiling

/-!
# One page of the device memory allocator

`Page` is the source's `page_t`: an address range cut into blocks, where every block is a heap node
with three pairs of links. A used block is on the used list; a free block is on the M-list
(increasing address, for merging) and on the S-list (decreasing size, for allocation). `none` stands
for a run the source leaves undefined: a null or deleted block is dereferenced.
-/

namespace VortexGpu.MemAlloc
open IntrusiveList Word

structure Block where
  nextFreeS : Option Ptr
  prevFreeS : Option Ptr
  nextFreeM : Option Ptr
  prevFreeM : Option Ptr
  nextUsed : Option Ptr
  prevUsed : Option Ptr
  addr : ℕ
  size : ℕ
deriving DecidableEq, Repr

def Block.new (addr size : ℕ) : Block := ⟨none, none, none, none, none, none, addr, size⟩

def Block.span (b : Block) : Span := ⟨b.addr, b.size⟩

def freeSLinks : LinkField Block where
  next := Block.nextFreeS
  prev := Block.prevFreeS
  setNext v b := { b with nextFreeS := v }
  setPrev v b := { b with prevFreeS := v }
  next_setNext _ _ := rfl
  next_setPrev _ _ := rfl
  prev_setNext _ _ := rfl
  prev_setPrev _ _ := rfl

def freeMLinks : LinkField Block where
  next := Block.nextFreeM
  prev := Block.prevFreeM
  setNext v b := { b with nextFreeM := v }
  setPrev v b := { b with prevFreeM := v }
  next_setNext _ _ := rfl
  next_setPrev _ _ := rfl
  prev_setNext _ _ := rfl
  prev_setPrev _ _ := rfl

def usedLinks : LinkField Block where
  next := Block.nextUsed
  prev := Block.prevUsed
  setNext v b := { b with nextUsed := v }
  setPrev v b := { b with prevUsed := v }
  next_setNext _ _ := rfl
  next_setPrev _ _ := rfl
  prev_setNext _ _ := rfl
  prev_setPrev _ _ := rfl

structure Page where
  addr : ℕ
  size : ℕ
  blockAlign : ℕ
  usedList : Option Ptr
  freeSList : Option Ptr
  freeMList : Option Ptr
  blocks : Store Block
  fresh : Ptr

namespace Page

def new (addr size blockAlign : ℕ) : Page where
  addr := addr
  size := size
  blockAlign := blockAlign
  usedList := none
  freeSList := some 0
  freeMList := some 0
  blocks := Function.update (fun _ => none) 0 (some (Block.new addr size))
  fresh := 1

variable (p : Page)

def empty : Bool := p.usedList.isNone

def insertUsedList (block : Ptr) : Option Page := do
  let (s, head) ← pushFront usedLinks p.blocks p.usedList block
  some { p with blocks := s, usedList := head }

def removeUsedList (block : Ptr) : Option Page := do
  let (s, head) ← remove usedLinks p.blocks p.usedList block
  some { p with blocks := s, usedList := head }

def insertFreeMList (block : Ptr) : Option Page := do
  let b ← p.blocks block
  let (s, head) ← insertSorted freeMLinks p.blocks (fun curr => curr.addr < b.addr) (p.fresh + 1)
    p.freeMList block
  some { p with blocks := s, freeMList := head }

def removeFreeMList (block : Ptr) : Option Page := do
  let (s, head) ← remove freeMLinks p.blocks p.freeMList block
  some { p with blocks := s, freeMList := head }

def insertFreeSList (block : Ptr) : Option Page := do
  let b ← p.blocks block
  let (s, head) ← insertSorted freeSLinks p.blocks (fun curr => b.size < curr.size) (p.fresh + 1)
    p.freeSList block
  some { p with blocks := s, freeSList := head }

def removeFreeSList (block : Ptr) : Option Page := do
  let (s, head) ← remove freeSLinks p.blocks p.freeSList block
  some { p with blocks := s, freeSList := head }

def setSize (block : Ptr) (size : ℕ) : Option Page := do
  let s ← modify p.blocks block (fun b => { b with size := size })
  some { p with blocks := s }

def newBlock (addr size : ℕ) : Page :=
  { p with blocks := Function.update p.blocks p.fresh (some (Block.new addr size)),
           fresh := p.fresh + 1 }

def deleteBlock (block : Ptr) : Page :=
  { p with blocks := Function.update p.blocks block none }

def allocate (size : ℕ) (freeBlock : Ptr) : Option Page := do
  let p ← p.removeFreeMList freeBlock
  let p ← p.removeFreeSList freeBlock
  -- split the free block if it is larger than needed
  let b ← p.blocks freeBlock
  let extraBytes := sub64 b.size size
  let p ← if p.blockAlign ≤ extraBytes then do
      let p ← p.setSize freeBlock size
      let nextAddr := add64 b.addr size
      let newBlock := p.fresh
      let p := p.newBlock nextAddr extraBytes
      let p ← p.insertFreeMList newBlock
      p.insertFreeSList newBlock
    else some p
  p.insertUsedList freeBlock

/-- The block absorbs its successor on the M-list, which is deleted. The
S-list entry taken out is `stale`: the absorbing block when it is on the S-list
(its size changed), otherwise the absorbed one. -/
def absorb (block next stale : Ptr) : Option Page := do
  let b ← p.blocks block
  let n ← p.blocks next
  let p ← p.setSize block (add64 b.size n.size)
  let s ← unlinkAfter freeMLinks p.blocks block next
  let p ← removeFreeSList { p with blocks := s } stale
  some (p.deleteBlock next)

def mergeLeft (usedBlock : Ptr) : Option (Page × Ptr) := do
  let b ← p.blocks usedBlock
  match b.prevFreeM with
  | none => some (p, usedBlock)
  | some prevBlock => do
    let pb ← p.blocks prevBlock
    let prevAddr := add64 pb.addr pb.size
    if b.addr = prevAddr then do
      let p ← p.absorb prevBlock usedBlock prevBlock
      some (p, prevBlock)
    else some (p, usedBlock)

def mergeRight (usedBlock : Ptr) : Option Page := do
  let b ← p.blocks usedBlock
  match b.nextFreeM with
  | none => some p
  | some nextBlock => do
    let nextAddr := add64 b.addr b.size
    let nb ← p.blocks nextBlock
    if nb.addr = nextAddr then p.absorb usedBlock nextBlock nextBlock else some p

def release (usedBlock : Ptr) : Option Page := do
  let p ← p.removeUsedList usedBlock
  let p ← p.insertFreeMList usedBlock
  let (p, usedBlock) ← p.mergeLeft usedBlock
  let p ← p.mergeRight usedBlock
  p.insertFreeSList usedBlock

/-- `while (b->nextFreeS && b->nextFreeS->size >= size) b = b->nextFreeS;` -/
def findFreeBlockFrom (p : Page) (size : ℕ) : ℕ → Ptr → Option Ptr
  | 0, _ => none
  | fuel + 1, freeBlock => do
    let b ← p.blocks freeBlock
    match b.nextFreeS with
    | none => some freeBlock
    | some next => do
      let n ← p.blocks next
      if size ≤ n.size then p.findFreeBlockFrom size fuel next else some freeBlock

def findFreeBlock (size : ℕ) : Option (Option Ptr) :=
  match p.freeSList with
  | none => some none
  | some freeBlock => do
    let b ← p.blocks freeBlock
    if size ≤ b.size then (p.findFreeBlockFrom size (p.fresh + 1) freeBlock).map some
    else some none

def findUsedBlockFrom (p : Page) (addr : ℕ) : ℕ → Option Ptr → Option (Option Ptr)
  | 0, _ => none
  | _ + 1, none => some none
  | fuel + 1, some useBlock => do
    let b ← p.blocks useBlock
    if b.addr = addr then some (some useBlock) else p.findUsedBlockFrom addr fuel b.nextUsed

def findUsedBlock (addr : ℕ) : Option (Option Ptr) :=
  if p.addr ≤ addr ∧ addr < add64 p.addr p.size then
    p.findUsedBlockFrom addr (p.fresh + 1) p.usedList
  else some none

def destroy : Option Unit := do
  if p.usedList.isSome then none
  let m ← p.freeMList
  let b ← p.blocks m
  if b.nextFreeM = none ∧ b.prevFreeM = none then some () else none

def spans (q : Ptr) : Option Span := (p.blocks q).map Block.span

def listed (F : LinkField Block) (head : Option Ptr) : Option (List Span) :=
  (walk F p.blocks (p.fresh + 1) head).map (fun l => l.filterMap p.spans)

def usedBlocks : Option (List Span) := p.listed usedLinks p.usedList
def freeMBlocks : Option (List Span) := p.listed freeMLinks p.freeMList
def freeSBlocks : Option (List Span) := p.listed freeSLinks p.freeSList

end Page
end VortexGpu.MemAlloc

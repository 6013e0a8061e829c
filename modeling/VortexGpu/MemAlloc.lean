import VortexGpu.MemAllocPageView
import VortexGpu.Runs

/-!
# The device memory allocator

`MemoryAllocator` keeps its pages in an address-sorted list; a pointer to a page
is a position in that list. `reserve`, `allocate` and `release` return the next
state with the source's outcome: `Except.ok` stands for the return code `0`,
`Except.error` for `-1` together with what the source prints. The outer `none`
is a failed assertion or a null dereference.
-/

namespace VortexGpu.MemAlloc
open IntrusiveList Word

inductive Error where
  | invalidArguments
  | outOfBounds (requested limit : ℕ)
  | overlaps (start stop overlapStart overlapEnd : ℕ)
  | noNextAddress
  | addressNotFound (addr : ℕ)
deriving DecidableEq, Repr

structure Geometry where
  baseAddress : ℕ
  capacity : ℕ
  pageAlign : ℕ
  blockAlign : ℕ
deriving DecidableEq, Repr

structure MemoryAllocator extends Geometry where
  pages : List Page
  allocated : ℕ

def alignSize (size alignment : ℕ) : Option ℕ :=
  if alignment &&& sub64 alignment 1 = 0 then some (alignUp64 size alignment) else none

/-- The loop over the pages shared by `allocate` and `release`: the first page in
which the search finds a block, and that block. -/
def findPage (search : Page → Option (Option Ptr)) : List Page → Option (Option (ℕ × Ptr))
  | [] => some none
  | page :: rest => do
    match ← search page with
    | some block => some (some (0, block))
    | none => (findPage search rest).map (Option.map (fun r => (r.1 + 1, r.2)))

def findGap (size limit : ℕ) : ℕ → List Page → Option ℕ
  | endOfLastPage, [] => if add64 endOfLastPage size ≤ limit then some endOfLastPage else none
  | endOfLastPage, current :: rest =>
    if add64 endOfLastPage size ≤ current.addr then some endOfLastPage
    else findGap size limit (add64 current.addr current.size) rest

def findOverlap (start size : ℕ) (pages : List Page) : Option (ℕ × ℕ) :=
  (pages.find? (fun p => start < add64 p.addr p.size ∧ p.addr < add64 start size)).map
    (fun p => (p.addr, add64 p.addr p.size))

namespace MemoryAllocator

def new (g : Geometry) : MemoryAllocator := ⟨g, [], 0⟩

def limit (s : MemoryAllocator) : ℕ := add64 s.baseAddress s.capacity

def insertPos (addr : ℕ) : List Page → ℕ
  | [] => 0
  | page :: rest =>
    if addr < page.addr then 0 else (rest.takeWhile (fun p => p.addr < addr)).length + 1

section
variable (s : MemoryAllocator)

def createPage (addr size : ℕ) : MemoryAllocator × ℕ :=
  let newPage := Page.new addr size s.blockAlign
  let pos := insertPos addr s.pages
  ({ s with pages := s.pages.insertIdx pos newPage }, pos)

def deletePage (page : ℕ) : Option MemoryAllocator := do
  let p ← s.pages[page]?
  p.destroy
  some { s with pages := s.pages.eraseIdx page }

def findNextAddress (size : ℕ) : Option ℕ :=
  match s.pages with
  | [] => some s.baseAddress
  | pages => findGap size s.limit s.baseAddress pages

/-- `page->allocate(size, block)` on the page at a position; returns the block's address. -/
def place (page : ℕ) (block : Ptr) (size : ℕ) : Option (MemoryAllocator × ℕ) := do
  let p ← s.pages[page]?
  let p ← p.allocate size block
  let b ← p.blocks block
  some ({ s with pages := s.pages.set page p, allocated := add64 s.allocated size }, b.addr)

def placeNew (addr pageSize size : ℕ) : Option (MemoryAllocator × ℕ) := do
  let (s, currPage) := s.createPage addr pageSize
  let p ← s.pages[currPage]?
  let freeBlock ← p.findFreeBlock size
  s.place currPage (← freeBlock) size

def reserve (addr size : ℕ) : Option (MemoryAllocator × Except Error (Option ℕ)) := do
  if size = 0 then
    some (s, .error .invalidArguments)
  else do
    let size ← alignSize size s.pageAlign
    if s.limit < add64 addr size then
      some (s, .error (.outOfBounds (add64 addr size) s.limit))
    else
      match findOverlap addr size s.pages with
      | some (overlapStart, overlapEnd) =>
        some (s, .error (.overlaps addr (add64 addr size) overlapStart overlapEnd))
      | none => do
        let (s, _) ← s.placeNew addr size size
        some (s, .ok none)

def allocate (size : ℕ) (addr : Bool) :
    Option (MemoryAllocator × Except Error (Option ℕ)) := do
  if size = 0 ∨ addr = false then
    some (s, .error .invalidArguments)
  else do
    let size ← alignSize size s.blockAlign
    match ← findPage (fun p => p.findFreeBlock size) s.pages with
    | some (currPage, freeBlock) => do
      let (s, a) ← s.place currPage freeBlock size
      some (s, .ok (some a))
    | none => do
      let pageSize ← alignSize size s.pageAlign
      match s.findNextAddress pageSize with
      | none => some (s, .error .noNextAddress)
      | some pageAddr => do
        let (s, a) ← s.placeNew pageAddr pageSize size
        some (s, .ok (some a))

def release (addr : ℕ) : Option (MemoryAllocator × Except Error (Option ℕ)) := do
  match ← findPage (fun p => p.findUsedBlock addr) s.pages with
  | none => some (s, .error (.addressNotFound addr))
  | some (currPage, usedBlock) => do
    let p ← s.pages[currPage]?
    let b ← p.blocks usedBlock
    let p ← p.release usedBlock
    let s := { s with pages := s.pages.set currPage p }
    let s ← if p.empty then s.deletePage currPage else some s
    some ({ s with allocated := sub64 s.allocated b.size }, .ok none)

end

end MemoryAllocator

inductive Call where
  | reserve (addr size : ℕ)
  | allocate (size : ℕ) (addr : Bool)
  | release (addr : ℕ)
deriving DecidableEq, Repr

def call (s : MemoryAllocator) : Call → Option (MemoryAllocator × Except Error (Option ℕ))
  | .reserve addr size => s.reserve addr size
  | .allocate size addr => s.allocate size addr
  | .release addr => s.release addr

def MemoryAllocator.live (s : MemoryAllocator) : List Span := s.pages.flatMap Page.used

end VortexGpu.MemAlloc

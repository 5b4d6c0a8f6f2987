import OsEojin.Lib.Runs
import OsEojin.Pmm

/-!
# The kernel heap: a first-fit list of blocks

`src/kernel/kheap.c`.  The heap is its list of block headers in `next` order, each with its address,
payload size and free flag; addresses and sizes are 64-bit, so every sum and difference of the source is
taken modulo `2 ^ 64` here.

* `kmalloc`: first fit with splitting, and growth by one page when nothing fits (the call that grows
  returns null);
* `kfree`: mark, then one pass over the list that merges neighbours both free, without looking at
  their addresses;
* `System`, `Op`, `step`: the heap and the other clients of the physical allocator, together with the
  bookkeeping the properties speak about: which allocations are live and who owns which page.
-/

namespace OsEojin.Kheap

open OsEojin.Pmm

/-- `sizeof(block_header_t)`. -/
def headerSize : ℕ := 24

/-- One header of the list: `block_header_t` with its own address in place of `next`. -/
structure Block where
  addr : ℕ
  size : ℕ
  isFree : Bool
  deriving DecidableEq, Repr

/-- The first address past the payload. -/
def Block.stop (b : Block) : ℕ := b.addr + headerSize + b.size

/-- 64-bit addition and subtraction. -/
def add64 (a b : ℕ) : ℕ := (a + b) % 2 ^ 64

def sub64 (a b : ℕ) : ℕ := (a + (2 ^ 64 - b % 2 ^ 64)) % 2 ^ 64

/-- The heap: the list from `head`, and the allocator it grows from. -/
structure Heap where
  blocks : List Block
  pmm : PmmState

/-- The one block a fresh page is turned into. -/
def pageBlock (page : ℕ) : Block := ⟨page, blockSize - headerSize, true⟩

/-- `init_kheap`. -/
def initKheap (pmm : PmmState) : Heap :=
  let page := pmmAllocBlock pmm
  if page.1 = 0 then ⟨[], page.2⟩ else ⟨[pageBlock page.1], page.2⟩

/-! ### Allocation -/

/-- What first fit leaves of the block it takes: the block marked used, and the remainder as a free
block when it is worth a header. -/
def carve (b : Block) (size : ℕ) : List Block :=
  if b.size > add64 size (headerSize + 8) then
    [{ b with size := size, isFree := false },
     ⟨add64 b.addr (headerSize + size), sub64 (sub64 b.size size) headerSize, true⟩]
  else [{ b with isFree := false }]

/-- The search of `kmalloc`: the payload address and the list after taking the first block that fits. -/
def firstFit (size : ℕ) : List Block → Option (ℕ × List Block)
  | [] => none
  | b :: bs =>
    if b.isFree ∧ size ≤ b.size then some (add64 b.addr headerSize, carve b size ++ bs)
    else (firstFit size bs).map fun r => (r.1, b :: r.2)

/-- Append the block of a new page, or let the last block absorb it when that block is free and ends
exactly where the page begins. -/
def grow (page : ℕ) : List Block → List Block
  | [] => [pageBlock page]
  | [last] =>
    if last.isFree ∧ add64 (add64 last.addr headerSize) last.size = page then
      [{ last with size := add64 last.size (add64 headerSize (blockSize - headerSize)) }]
    else [last, pageBlock page]
  | b :: c :: bs => b :: grow page (c :: bs)

/-- `kmalloc`.  The call that has to grow the heap returns null, whether or not a page was found. -/
def kmalloc (h : Heap) (size : ℕ) : ℕ × Heap :=
  if size = 0 then (0, h)
  else
    match firstFit size h.blocks with
    | some r => (r.1, { h with blocks := r.2 })
    | none =>
      let page := pmmAllocBlock h.pmm
      if page.1 = 0 then (0, { h with pmm := page.2 })
      else (0, ⟨grow page.1 h.blocks, page.2⟩)

/-! ### Release -/

/-- Mark the block with header at `ptr - sizeof(block_header_t)` free. -/
def markFree (ptr : ℕ) (bs : List Block) : List Block :=
  bs.map fun b => if b.addr + headerSize = ptr then { b with isFree := true } else b

/-- The merging pass from the block `b` on. -/
def coalesceFrom (b : Block) : List Block → List Block
  | [] => [b]
  | c :: bs =>
    if b.isFree ∧ c.isFree then
      coalesceFrom { b with size := add64 b.size (add64 headerSize c.size) } bs
    else b :: coalesceFrom c bs

/-- The merging pass of `kfree`. -/
def coalesce : List Block → List Block
  | [] => []
  | b :: bs => coalesceFrom b bs

/-- `kfree`. -/
def kfree (h : Heap) (ptr : ℕ) : Heap :=
  if ptr = 0 then h else { h with blocks := coalesce (markFree ptr h.blocks) }

/-! ### The heap among the clients of the physical allocator -/

/-- A live allocation: the pointer handed out and the size asked for. -/
structure Allocation where
  ptr : ℕ
  request : ℕ
  deriving DecidableEq, Repr

/-- The heap, its live allocations, the pages it obtained and the pages of everybody else. -/
structure System where
  heap : Heap
  live : List Allocation
  pages : List ℕ
  foreign : List ℕ

/-- The page a call of `kmalloc` obtains, if it obtains one. -/
def kmallocPage (h : Heap) (size : ℕ) : Option ℕ :=
  if size ≠ 0 ∧ firstFit size h.blocks = none ∧ (pmmAllocBlock h.pmm).1 ≠ 0 then
    some (pmmAllocBlock h.pmm).1
  else none

inductive Op where
  | kmalloc (size : ℕ)
  | kfree (ptr : ℕ)
  | alloc
  deriving DecidableEq, Repr

/-- One operation. -/
def step (s : System) : Op → System
  | .kmalloc size =>
    let r := Kheap.kmalloc s.heap size
    { s with
      heap := r.2
      live := if r.1 = 0 then s.live else ⟨r.1, size⟩ :: s.live
      pages := (kmallocPage s.heap size).toList ++ s.pages }
  | .kfree ptr =>
    { s with
      heap := Kheap.kfree s.heap ptr
      live := s.live.filter fun a => a.ptr ≠ ptr }
  | .alloc =>
    let r := pmmAllocBlock s.heap.pmm
    { s with
      heap := { s.heap with pmm := r.2 }
      foreign := if r.1 = 0 then s.foreign else r.1 :: s.foreign }

/-- The system right after `init_kheap`. -/
def start (pmm : PmmState) : System :=
  { heap := initKheap pmm
    live := []
    pages := if (pmmAllocBlock pmm).1 = 0 then [] else [(pmmAllocBlock pmm).1]
    foreign := [] }

/-- Only live pointers are freed. -/
def FreesLive (s : System) : Op → Prop
  | .kfree ptr => ∃ a ∈ s.live, a.ptr = ptr
  | _ => True

end OsEojin.Kheap

import Flix.Lib.Bytes
import Flix.Lib.Runs

/-!
# The kernel heap

`KHeap` keeps its blocks end to end between `m_heapStart` and `m_heapEnd`. A
block is a 4-byte header followed by its payload; the header packs the block's
size (a multiple of 4, so its two low bits are free) with a `used` bit. There is
no free list: `kmalloc` walks the blocks from the start and takes the first free
one that is large enough, and grows the heap by whole pages when there is none.

Every `assert` of the source is a check here, and a function whose assertion
fails returns `none`. Sizes are 32-bit, and their arithmetic wraps as the
source's does; addresses are 64-bit.
-/

namespace Flix.KHeap

open Bytes

def HEADER_SIZE : Nat := 4
def BLOCK_ALIGN_SHIFT : Nat := 2
def BLOCK_ALIGN : Nat := 4
def BLOCK_MIN_SIZE : Nat := HEADER_SIZE + 4
def PAGE_SIZE : Nat := 0x1000

/-- `VIRTUAL_HEAP` of the linker script, the address `Symbols::getHeapBase` returns. -/
def heapBase : Nat := 0xfffffffff0000000

/-- `uint32_t` subtraction. -/
def sub32 (a b : Nat) : Nat := (a + 2 ^ 32 - b) % 2 ^ 32

/-- `intAlignSup` on `uint32_t`: masking with `~(val - 1)` rounds down to a multiple of
`val`, which must be a power of two. -/
def intAlignSup (base val : Nat) : Nat := (base + val - 1) % 2 ^ 32 / val * val

/-- `ptrAlignSup`, the same on a 64-bit address. -/
def ptrAlignSup (ptr val : Nat) : Nat := (ptr + val - 1) % 2 ^ 64 / val * val

/-! ## Block headers -/

/-- `getSize`: the upper 30 bits of the header, shifted back. -/
def getSize (m : Mem) (block : Nat) : Nat :=
  readLE m block 4 / 2 ^ BLOCK_ALIGN_SHIFT * 2 ^ BLOCK_ALIGN_SHIFT

/-- `setSize`: the two low bits of the header, `used` and `avl`, stay. -/
def setSize (m : Mem) (block asize : Nat) : Option Mem := do
  assert (asize % BLOCK_ALIGN = 0)
  some (writeLE m block 4
    (asize / 2 ^ BLOCK_ALIGN_SHIFT * 2 ^ BLOCK_ALIGN_SHIFT + readLE m block 4 % 4))

/-- `getUsed`: the lowest bit of the header. -/
def getUsed (m : Mem) (block : Nat) : Bool := readLE m block 4 % 2 == 1

/-- `setUsed`: everything but the lowest bit stays. -/
def setUsed (m : Mem) (block : Nat) (used : Bool) : Mem :=
  writeLE m block 4 (readLE m block 4 / 2 * 2 + used.toNat)

/-- `getData`: the payload starts right behind the header. -/
def getData (block : Nat) : Nat := block + HEADER_SIZE

/-! ## The heap -/

/-- The fields of `KHeap`, with the memory its blocks live in. -/
structure Heap where
  mem : Mem
  heapStart : Nat
  heapEnd : Nat
  lastBlock : Nat

/--
`KHeap::init`. The first block covers the multiboot information, whose size is
its own first word; the rest of the 2 MB is one free block.
-/
def init (mem : Mem) : Option Heap := do
  let initialSize := 0x200000
  let heapStart := heapBase
  let heapEnd := heapStart + initialSize
  let mbSize := readLE mem (ptrAlignSup (heapStart + HEADER_SIZE) 8) 4
  let blockSize := (intAlignSup mbSize BLOCK_ALIGN + HEADER_SIZE) % 2 ^ 32
  assert (BLOCK_MIN_SIZE < blockSize)
  let mem ← setSize mem heapStart blockSize
  let mem := setUsed mem heapStart true
  let block := heapStart + blockSize
  let initialSize := sub32 initialSize blockSize
  let mem ← setSize mem block initialSize
  let mem := setUsed mem block false
  some { mem := mem, heapStart := heapStart, heapEnd := heapEnd, lastBlock := block }

/-- `KHeap::splitBlock`: the first part gets `size` bytes, the second what is left. -/
def splitBlock (m : Mem) (block size : Nat) : Option (Mem × Nat × Nat) := do
  assert (getUsed m block = false)
  assert (size ≤ sub32 (getSize m block) BLOCK_MIN_SIZE)
  let fullSize := getSize m block
  let nextBlock := block + size
  let m ← setSize m block size
  let m ← setSize m nextBlock (sub32 fullSize size)
  let m := setUsed m nextBlock false
  some (m, block, nextBlock)

/-- How the search loop of `kmalloc` ends. -/
inductive Search where
  /-- A free block that is large enough, but too small to be split. -/
  | take (block : Nat)
  /-- A free block that is to be split. -/
  | split (block : Nat)
  /-- No block would do; `block` is the last one looked at. -/
  | exhausted (block : Nat)
  deriving DecidableEq, Repr

/--
The search loop of `kmalloc`, from `ptr` on. `fuel` bounds the number of blocks;
every block is at least `BLOCK_MIN_SIZE` long, so the length of the heap is
enough of it.
-/
def search (h : Heap) (size : Nat) : Nat → Nat → Nat → Option Search
  | 0, _, _ => none
  | fuel + 1, block, ptr =>
    if ptr < h.heapEnd then do
      let block := ptr
      let blockSize := getSize h.mem block
      assert (block ≤ h.lastBlock)
      assert (BLOCK_MIN_SIZE ≤ blockSize)
      if getUsed h.mem block = false ∧ size < blockSize then
        if sub32 blockSize BLOCK_MIN_SIZE ≤ size then
          some (.take block)
        else
          some (.split block)
      else
        search h size fuel block (ptr + blockSize)
    else
      some (.exhausted block)

/-- What a run of the loop over the whole heap finds. -/
def searchAll (h : Heap) (size : Nat) : Option Search :=
  search h size (h.heapEnd - h.heapStart + 1) 0 h.heapStart

/-- Map one more page at `a`; `pages` is what the frame behind it holds. -/
def mapPage (pages m : Mem) (a : Nat) : Mem :=
  fun x => if a ≤ x ∧ x < a + PAGE_SIZE then pages x else m x

/-- One turn of the loop of `enlargeHeap`. -/
def enlargeStep (pages : Mem) (h : Heap) : Option Heap := do
  let m := mapPage pages h.mem h.heapEnd
  let heapEnd := (h.heapEnd + PAGE_SIZE) % 2 ^ 64
  if getUsed m h.lastBlock then
    -- the last block is used: the page becomes a new block, whose `used` bit is
    -- whatever the page holds there
    let block := h.lastBlock + getSize m h.lastBlock
    assert (block % PAGE_SIZE = 0)
    assert (block < heapEnd)
    let m ← setSize m block 0
    let m ← setSize m block ((getSize m block + PAGE_SIZE) % 2 ^ 32)
    some { h with mem := m, heapEnd := heapEnd, lastBlock := block }
  else
    let m ← setSize m h.lastBlock ((getSize m h.lastBlock + PAGE_SIZE) % 2 ^ 32)
    some { h with mem := m, heapEnd := heapEnd }

def enlargeLoop (pages : Mem) : Nat → Heap → Option Heap
  | 0, h => some h
  | n + 1, h => do enlargeLoop pages n (← enlargeStep pages h)

/-- `KHeap::enlargeHeap`. -/
def enlargeHeap (pages : Mem) (h : Heap) (pageCount : Nat) : Option Heap := do
  let h ← enlargeLoop pages pageCount h
  assert (h.lastBlock + getSize h.mem h.lastBlock = h.heapEnd)
  some h

/-- The request with its header, rounded up to whole words. -/
def roundRequest (size : Nat) : Nat := intAlignSup ((size + HEADER_SIZE) % 2 ^ 32) BLOCK_ALIGN

/-- The pages `kmalloc` asks for: what is missing once a free last block is counted in. -/
def neededPages (m : Mem) (block size : Nat) : Nat :=
  let blockSize := if getUsed m block then 0 else getSize m block
  (sub32 size blockSize + 0x1000 - 1) % 2 ^ 32 / 0x1000

/-- The end of `kmalloc`, once the heap has been enlarged. -/
def takeLast (h : Heap) (size : Nat) : Option (Heap × Nat) := do
  let block := h.lastBlock
  assert (size ≤ getSize h.mem block)
  let (m, block, lastBlock) ←
    if size ≤ sub32 (getSize h.mem block) BLOCK_MIN_SIZE then
      splitBlock h.mem block size
    else
      some (h.mem, block, h.lastBlock)
  let m := setUsed m block true
  assert (size ≤ getSize m block)
  assert (lastBlock + getSize m lastBlock = h.heapEnd)
  some ({ h with mem := m, lastBlock := lastBlock }, getData block)

/-- What `kmalloc` does with the outcome of its search. -/
def allocFrom (pages : Mem) (h : Heap) (size : Nat) : Search → Option (Heap × Nat)
  | .take block => do
      let m := setUsed h.mem block true
      assert (size ≤ getSize m block)
      some ({ h with mem := m }, getData block)
  | .split block => do
      let (m, first, second) ← splitBlock h.mem block size
      let lastBlock := if block = h.lastBlock then second else h.lastBlock
      let m := setUsed m first true
      assert (getUsed m second = false)
      assert (BLOCK_MIN_SIZE ≤ getSize m second)
      assert (size ≤ getSize m first)
      some ({ h with mem := m, lastBlock := lastBlock }, getData first)
  | .exhausted block => do
      assert (block = h.lastBlock)
      let h ← enlargeHeap pages h (neededPages h.mem block size)
      takeLast h size

/--
`KHeap::kmalloc`. The null pointer is address `0`; `pages` is what the frames of
newly mapped pages hold.
-/
def kmalloc (pages : Mem) (h : Heap) (size : Nat) : Option (Heap × Nat) :=
  if size = 0 then some (h, 0)
  else (searchAll h (roundRequest size)).bind (allocFrom pages h (roundRequest size))

/-- `malloc`: the parameter of `kmalloc` has 32 bits. -/
def malloc (pages : Mem) (h : Heap) (size : Nat) : Option (Heap × Nat) :=
  kmalloc pages h (size % 2 ^ 32)

/-- `KHeap::kfree`. -/
def kfree (h : Heap) (ptr : Nat) : Heap :=
  if ptr = 0 then h else { h with mem := setUsed h.mem (ptr - HEADER_SIZE) false }

end Flix.KHeap

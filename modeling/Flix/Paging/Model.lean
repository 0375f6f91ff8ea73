import Flix.Lib.Radix
import Flix.Lib.Runs
import Flix.Lib.Traced
import Mathlib.Data.BitVec

/-!
# Page directories and their allocators

`PageManager.hpp`, `PageDirectory.cpp`, `PageHeap.cpp` and `Memory.cpp`.

A page directory is a tree of four levels of tables. A table has 512 entries, in
the format of the processor, and beside them (on all levels but the last) 512
pointers to the tables below, for the kernel. Tables live in blocks of the page
heap, and a table is named by the number of its block.

The components call each other. To map a page may need a table, hence a block of
the page heap; a new block has to be mapped in the kernel directory, which takes
two frames and may need a table again. This second table comes from a pool of
blocks that are mapped already, so that the recursion ends there: `allocBlock`
comes with the two bodies it has in the source, one for a call from outside and
one (`takePool`) for a call out of itself. After each page mapped from outside the
pool is filled up again.

A failed assertion and `PANIC` are `none`. Addresses are 64 bits wide, and the
`base` field of an entry 40. The counter of used pages is only printed, and the
other bits of an entry are never read; both are left out.
-/

namespace Flix.Paging

open Function Radix

abbrev VAddr := BitVec 64

def PAGE_SIZE : Nat := 4096

def INVALID_PAGE : Nat := 2 ^ 40 - 1

def INVALID_PHYS : Nat := INVALID_PAGE * PAGE_SIZE

/-! ## Entries -/

/-- `PageTableEntry`. -/
structure Entry where
  p : Bool
  rw : Bool
  us : Bool
  nx : Bool
  base : Nat
  deriving DecidableEq, Repr

/-- What `memset` leaves. -/
def Entry.zero : Entry := ⟨false, false, false, false, 0⟩

def ATTR_RW : Nat := 0x1
def ATTR_PUBLIC : Nat := 0x2
def ATTR_NOEXEC : Nat := 0x4
def ATTR_DEFER : Nat := 0x8

/-- `AttributeSetter`: it sets bits and clears none, but for `p`. -/
def setAttributes (attr : Nat) (e : Entry) : Entry :=
  { e with
    rw := e.rw || attr.testBit 0
    us := e.us || attr.testBit 1
    nx := e.nx || attr.testBit 2
    p := e.p && !attr.testBit 3 }

def Entry.getAttributes (e : Entry) : Nat :=
  (if e.rw then ATTR_RW else 0) + (if e.us then ATTR_PUBLIC else 0)
    + (if e.nx then ATTR_NOEXEC else 0) + (if !e.p && e.base == INVALID_PAGE then ATTR_DEFER else 0)

def Entry.isValid (e : Entry) : Bool := e.p || e.base == INVALID_PAGE

/-- The page present, at the physical address `paddr`. -/
def Entry.present (paddr : Nat) (e : Entry) : Entry :=
  { e with p := true, base := paddr / PAGE_SIZE % 2 ^ 40 }

/-- `indexFromAddress`, for the tables of a level; those of level 0 hold the pages. -/
def index (level : Nat) (v : VAddr) : Nat := v.toNat / 2 ^ (12 + 9 * level) % 512

/-! ## Frames -/

/-- `Memory::setPageUsed`. -/
def setPageUsed (frames : List Bool) (page : Nat) : Option (List Bool) := do
  let frames := if frames.length ≤ page then
      frames ++ List.replicate ((page + 1 + 15) / 16 * 16 - frames.length) false
    else frames
  assert (page < frames.length)
  assert (frames[page]? = some false)
  some (frames.set page true)

/-- `Memory::getFreePage`. -/
def getFreePage (frames : List Bool) : Option (List Bool × Nat) :=
  match frames.findIdx? (fun used => !used) with
  | some i => (setPageUsed frames i).map fun frames => (frames, i)
  | none =>
    let i := frames.length
    (setPageUsed (frames ++ List.replicate 16 false) i).map fun frames => (frames, i)

/-- `Memory::setPageFree`. -/
def setPageFree (frames : List Bool) (page : Nat) : Option (List Bool) := do
  assert (page < frames.length)
  assert (frames[page]? = some true)
  some (frames.set page false)

/-! ## The kernel's memory -/

/-- `PageHeap<2, 16, 32>`. -/
structure PageHeap where
  map : List Bool
  /-- Blocks and their physical addresses, `back` first. -/
  pool : List (Nat × Nat)
  allocating : Bool
  usedBlockCount : Nat

/-- `PageHeap<4, 0, 0>`, which the kernel stacks come from. -/
structure StackPageHeap where
  map : List Bool
  usedBlockCount : Nat

/-- The table at the top, and the `base` of `CR3`. -/
structure PageDirectory where
  root : Nat
  base : Nat

structure World where
  tables : Store Entry
  heap : PageHeap
  stackHeap : StackPageHeap
  /-- `Memory::_frames`. -/
  frames : List Bool
  /-- `g_kernelDirectory`. -/
  kernel : PageDirectory
  /-- `_kernelPageHeapStart`. -/
  pageHeapStart : Nat

/-- The bits that there is room for from `VIRTUAL_HEAP` on. -/
def heapBits : Nat := (2 ^ 64 - 0xfffffffff0000000) * 8

/-- The kernel heap has room for the bitmap of the frames. -/
def World.Fits (w : World) : Prop := w.frames.length ≤ heapBits

instance (w : World) : Decidable w.Fits := inferInstanceAs (Decidable (_ ≤ _))

/-- An entry can name every frame. -/
theorem World.Fits.named {w : World} (h : w.Fits) : w.frames.length ≤ 2 ^ 40 :=
  le_trans h (by decide)

def pageHeapBase : VAddr := 0xffffffffe0000000

/-- `pageToPtr`, of which the product is of 32 bits. -/
def pageToPtr (i : Nat) : VAddr := pageHeapBase + BitVec.ofNat 64 (i * PAGE_SIZE * 2 % 2 ^ 32)

def World.setEntry (w : World) (t i : Nat) (e : Entry) : World :=
  { w with tables := Radix.setEntry w.tables t i e }

def World.entry (w : World) (t i : Nat) : Option Entry := (w.tables t).map fun n => n.entries i

/-! ## Walks -/

/-- `getEntryImpl`, from a table of level `stop + n` to the entry of level `stop`, as table and
index. -/
def getEntry (T : Store Entry) (stop : Nat) : Nat → Nat → VAddr → Option (Option (Nat × Nat))
  | 0, t, v => some (some (t, index stop v))
  | n + 1, t, v => do
      let nd ← T t
      let i := index (stop + n + 1) v
      match nd.next i with
      | none => do
          -- "Incoherence between layouts and page directory"
          assert ((nd.entries i).p = false)
          some none
      | some u => getEntry T stop n u v

/-- `getEntryImpl` with an initializer, which creates the tables that are missing. The slot is
written after the allocation, whatever that has done to it. -/
def getEntryCreate (alloc : World → Option (World × Nat × Nat)) (init : Entry → Entry)
    (stop : Nat) : Nat → World → Nat → VAddr → Option (World × Nat × Nat)
  | 0, w, t, v => some (w, t, index stop v)
  | n + 1, w, t, v => do
      let nd ← w.tables t
      let i := index (stop + n + 1) v
      match nd.next i with
      | some u => getEntryCreate alloc init stop n w u v
      | none => do
          assert ((nd.entries i).p = false)
          let (w, u, phys) ← alloc w
          let T := update w.tables u (some (Node.blank .zero))
          let T := setNext T t i u
          let e ← (T t).map fun n => n.entries i
          let w := { w with tables := Radix.setEntry T t i (init (e.present phys)) }
          getEntryCreate alloc init stop n w u v

/-- `mapPageToF`. -/
def mapPageToF (alloc : World → Option (World × Nat × Nat)) (w : World) (root : Nat) (v : VAddr)
    (paddr : Nat) (f : Entry → Entry) : Option World := do
  let (w, t, i) ← getEntryCreate alloc (setAttributes 0x3) 0 3 w root v
  let e ← w.entry t i
  -- "Page already mapped"
  assert (e.p = false)
  some (w.setEntry t i (f (e.present paddr)))

/-- `_mapPageTo`. -/
def mapPageToRaw (alloc : World → Option (World × Nat × Nat)) (w : World) (root : Nat) (v : VAddr)
    (paddr attr : Nat) : Option World := do
  -- "Mapping private page in user space"
  assert (¬ (v.toNat < 0xffffffff00000000 ∧ attr.testBit 1 = false))
  -- "Mapping public page in kernel space"
  assert (¬ (v.toNat > 0xffffffffc0000000 ∧ attr.testBit 1 = true))
  -- "Invalid page attributes parameter"
  assert (attr < 16)
  mapPageToF alloc w root v paddr (setAttributes attr)

/-- `mapPage`, over one of the ways to map a page to an address. -/
def mapPageBy (mapTo : World → VAddr → Nat → Nat → Option World) (w : World) (v : VAddr)
    (attr : Nat) : Option (World × Nat) :=
  if attr.testBit 3 = true then do
    let w ← mapTo w v INVALID_PHYS attr
    some (w, INVALID_PHYS)
  else do
    let (frames, page) ← getFreePage w.frames
    assert (page ≠ INVALID_PAGE)
    let w ← mapTo { w with frames := frames } v (page * PAGE_SIZE) attr
    some (w, page * PAGE_SIZE)

/-! ## The page heap -/

/-- `allocBlock` while the heap is allocating. -/
def takePool (w : World) : Option (World × Nat × Nat) :=
  match w.heap.pool with
  | [] => none
  | (i, phys) :: pool => some ({ w with heap := { w.heap with pool := pool } }, i, phys)

/-- `mapPage` on the kernel directory, called by the heap. `refillPool` returns at once. -/
def mapHeapPage (w : World) (v : VAddr) : Option (World × Nat) :=
  mapPageBy (fun w v paddr attr => mapPageToRaw takePool w w.kernel.root v paddr attr) w v
    (ATTR_RW + ATTR_NOEXEC)

/-- The end of `allocPage`. -/
def World.allocated (w : World) : World :=
  { w with heap := { w.heap with
    allocating := false
    usedBlockCount := w.heap.usedBlockCount + 1 } }

/-- `allocPage`. The first 32 pages are always mapped. -/
def allocPage (w : World) (index : Nat) : Option (World × Nat × Nat) := do
  assert (w.heap.map[index]? = some false)
  let w := { w with heap := { w.heap with allocating := true, map := w.heap.map.set index true } }
  if index * 2 ≥ 32 then do
    let (w, phys) ← mapHeapPage w (pageToPtr index)
    let (w, _) ← mapHeapPage w (pageToPtr index + 0x1000)
    some (w.allocated, index, phys)
  else
    some (w.allocated, index, w.pageHeapStart + index * PAGE_SIZE * 2)

/-- `allocBlock`. -/
def allocBlock (w : World) : Option (World × Nat × Nat) :=
  if w.heap.allocating then takePool w
  else
    match w.heap.map.findIdx? (fun used => !used) with
    | some i => allocPage w i
    | none =>
      let index := w.heap.map.length
      allocPage { w with heap := { w.heap with map := w.heap.map ++ [false] } } index

/-- `refillPool`, in at most `n` rounds. -/
def refillRounds : Nat → World → Option World
  | 0, w => if w.heap.pool.length < 16 then none else some w
  | n + 1, w =>
    if w.heap.pool.length < 16 then do
      let (w, block) ← allocBlock w
      refillRounds n { w with heap := { w.heap with pool := block :: w.heap.pool } }
    else some w

def refillPool (w : World) : Option World :=
  if w.heap.allocating then some w else refillRounds 64 w

/-! ## Page directories -/

/-- `PageDirectory::mapPageTo`. -/
def mapPageTo (w : World) (root : Nat) (v : VAddr) (paddr attr : Nat) : Option World := do
  let w ← mapPageToRaw allocBlock w root v paddr attr
  refillPool w

/-- `PageDirectory::mapPage`. -/
def mapPage (w : World) (root : Nat) (v : VAddr) (attr : Nat) : Option (World × Nat) :=
  mapPageBy (fun w v paddr attr => mapPageTo w root v paddr attr) w v attr

/-- `PageDirectory::mapRange`, of `n` pages. -/
def mapRange (w : World) (root : Nat) (v : VAddr) (attr : Nat) : Nat → Option World
  | 0 => some w
  | n + 1 => do
      let (w, _) ← mapPage w root v attr
      mapRange w root (v + 0x1000) attr n

/-- `PageDirectory::unmapPage`, which keeps the attributes. -/
def unmapPage (w : World) (root : Nat) (v : VAddr) : Option (World × Nat) := do
  let page ← getEntry w.tables 0 3 root v
  -- "Unmapping page that was not mapped"
  let (t, i) ← page
  let e ← w.entry t i
  assert (e.p = true)
  some (w.setEntry t i { e with p := false, base := 0 }, e.base * PAGE_SIZE)

/-- `PageDirectory::resolve`. -/
def resolve (w : World) (root : Nat) (v : VAddr) : Option Nat := do
  match ← getEntry w.tables 0 3 root v with
  | none => some INVALID_PHYS
  | some (t, i) => do
      let e ← w.entry t i
      some (if e.p then e.base * PAGE_SIZE else INVALID_PHYS)

/-- `PageDirectory::handleFault`. -/
def handleFault (w : World) (root : Nat) (v : VAddr) : Option (World × Bool) := do
  match ← getEntry w.tables 0 3 root v with
  | none => some (w, false)
  | some (t, i) => do
      let e ← w.entry t i
      if e.p = true ∨ e.base ≠ INVALID_PAGE then some (w, false)
      else do
        let (frames, page) ← getFreePage w.frames
        some ({ w with frames := frames }.setEntry t i { e with p := true, base := page % 2 ^ 40 },
          true)

/-- `createPm`. -/
def createPm (w : World) : Option (World × PageDirectory) := do
  let (w, u, phys) ← allocBlock w
  some ({ w with tables := update w.tables u (some (Node.blank .zero)) },
    ⟨u, phys / PAGE_SIZE % 2 ^ 40⟩)

/-- `PageManager::mapTo<2>`: the entry and the pointer of level 2 are copied. -/
def mapTo2 (w : World) (root other : Nat) (v : VAddr) : Option World := do
  -- "Mapping to unmapped address in 'other'"
  let (t, i) ← ← getEntry w.tables 2 1 other v
  let (w, t', i') ← getEntryCreate allocBlock (setAttributes ATTR_RW) 2 1 w root v
  let nd ← w.tables t
  let nd' ← w.tables t'
  some { w with tables := update w.tables t' (some {
    entries := update nd'.entries i' (nd.entries i)
    next := update nd'.next i' (nd.next i) }) }

def kernelVBase : VAddr := 0xffffffffc0000000

/-- `PageDirectory::mapKernel`, for a new directory. -/
def mapKernel (w : World) : Option (World × PageDirectory) := do
  let (w, pd) ← createPm w
  let w ← mapTo2 w pd.root w.kernel.root kernelVBase
  let e ← w.entry pd.root 511
  some (w.setEntry pd.root 511 { e with us := true }, pd)

/-! ## Traversal -/

/-- `extendSign`. -/
def extendSign (a : Nat) : Nat :=
  if a % 2 ^ 48 < 2 ^ 47 then a % 2 ^ 48 else a % 2 ^ 48 + (2 ^ 64 - 2 ^ 48)

section Traversal

variable {m : Type → Type} [Monad m] [MonadLiftT Option m] {σ : Type}

variable (T : σ → Store Entry) (f : σ → Entry → VAddr → m σ)

/-- The innermost loop of `forEachUserPage`, over a table of level 1 with the address of its first
page. -/
def forEachLevel1 (add t : Nat) (s : σ) : m σ :=
  (List.range 512).foldlM (fun s i => do
    let level1 ← T s t
    let e := level1.entries i
    if e.isValid then f s e (BitVec.ofNat 64 (add + i * 2 ^ 12)) else pure s) s

def forEachLevel2 (add t : Nat) (s : σ) : m σ :=
  (List.range 512).foldlM (fun s i => do
    let level2 ← T s t
    (level2.next i).elim (pure s) fun u => forEachLevel1 T f (add + i * 2 ^ 21) u s) s

def forEachLevel3 (add t : Nat) (s : σ) : m σ :=
  (List.range 512).foldlM (fun s i => do
    let level3 ← T s t
    if add + i * 2 ^ 30 ≥ 0xffff00000000 then pure s
    else
      (level3.next i).elim (pure s) fun u => forEachLevel2 T f (add + i * 2 ^ 30) u s) s

/-- `forEachUserPage`, with a function of the state, the entry and its address. The tables are
read as the traversal comes to them, and the parts of an address have no bit in common. -/
def forEachUserPage (root : Nat) (s : σ) : m σ :=
  (List.range 512).foldlM (fun s i => do
    let level4 ← T s root
    (level4.next i).elim (pure s) fun u => forEachLevel3 T f (extendSign (i * 2 ^ 39)) u s) s

end Traversal

/-! ## Kernel stacks -/

def stackPageHeapBase : VAddr := 0xffffffffe8000000

/-- `pageToPtr` of the heap of kernel stacks. -/
def stackToPtr (i : Nat) : VAddr :=
  stackPageHeapBase + BitVec.ofNat 64 (i * PAGE_SIZE * 4 % 2 ^ 32)

/-- The four pages of a stack. -/
def stackPages (i : Nat) : List VAddr :=
  (List.range 4).map fun n => stackToPtr i + BitVec.ofNat 64 (n * 0x1000)

/-- `mapPage` for the heap of kernel stacks. -/
def mapStackPage (w : World) (v : VAddr) : Option (World × Nat) :=
  mapPage w w.kernel.root v (ATTR_RW + ATTR_NOEXEC)

/-- `kmalloc` of the heap of kernel stacks, which has neither pool nor static pages. -/
def stackKmalloc (w : World) : Option (World × Nat × Nat) := do
  let index := (w.stackHeap.map.findIdx? (fun used => !used)).getD w.stackHeap.map.length
  let map := if index < w.stackHeap.map.length then w.stackHeap.map else w.stackHeap.map ++ [false]
  let (w, phys) ← mapStackPage { w with stackHeap := { w.stackHeap with map := map.set index true } }
    (stackToPtr index)
  let w ← (stackPages index).tail.foldlM (fun w v => (mapStackPage w v).map Prod.fst) w
  some ({ w with stackHeap := { w.stackHeap with usedBlockCount := w.stackHeap.usedBlockCount + 1 } },
    index, phys)

/-! ## Destruction -/

/-- The calls that give something back: a frame, with the state it is called in, and a block. -/
inductive Call where
  | setPageFree (w : World) (page : Nat)
  | kfree (index : Nat)

section Destruction

variable {m : Type → Type} [Monad m] [MonadLiftT Option m] [Notes Call m]

/-- `Memory::setPageFree`, in the world. -/
def World.setPageFree (w : World) (page : Nat) : m World := do
  note (Call.setPageFree w page)
  let frames ← Paging.setPageFree w.frames page
  pure { w with frames := frames }

/-- `unmapPage` on the kernel directory and `setPageFree`, as both heaps do it. -/
def unmapAndFree (w : World) (v : VAddr) : m World := do
  let (w, phys) ← unmapPage w w.kernel.root v
  w.setPageFree (phys / PAGE_SIZE)

/-- The pages of a block. The first 32 are always mapped. -/
def freeBlockPages (w : World) (index : Nat) : m World :=
  if index * 2 ≥ 32 then do
    let w ← unmapAndFree w (pageToPtr index)
    unmapAndFree w (pageToPtr index + 0x1000)
  else pure w

/-- The end of `kfree`, of a block with a table. -/
def World.freed (w : World) (index : Nat) : World :=
  { w with
    heap := { w.heap with
      usedBlockCount := w.heap.usedBlockCount - 1
      map := w.heap.map.set index false }
    tables := update w.tables index none }

/-- `PageHeap::kfree`. -/
def kfree (w : World) (index : Nat) : m World := do
  note (Call.kfree index)
  assert (w.heap.map[index]? = some true)
  let w ← freeBlockPages w index
  pure (w.freed index)

/-- `kfree` of the heap of kernel stacks. -/
def stackKfree (w : World) (index : Nat) : m World := do
  assert (w.stackHeap.map[index]? = some true)
  let w ← (stackPages index).foldlM unmapAndFree w
  pure { w with stackHeap := { w.stackHeap with
    usedBlockCount := w.stackHeap.usedBlockCount - 1
    map := w.stackHeap.map.set index false } }

/-- `~PageManager`, of a table of the level. Slot 511 of level 2 is skipped "to avoid freeing
kernel pages which are shared between all processes". -/
def destroyTable : Nat → World → Nat → m World
  | 0, w, _ => pure w
  | level + 1, w, t =>
    (List.range 512).foldlM (fun w i =>
      if level + 1 = 2 ∧ i = 511 then pure w
      else do
        let nd ← w.tables t
        (nd.next i).elim (pure w) fun u => do
          let w ← destroyTable level w u
          kfree w u) w

/-- `PageManager::release`. -/
def release (w : World) (root : Nat) : m World := do
  let w ← destroyTable 3 w root
  kfree w root

/-- What `unmapUserSpace` does with a page of the old directory. -/
def freeUserPage (w : World) (e : Entry) (_ : VAddr) : m World :=
  if e.p then w.setPageFree e.base
  else do
    -- deferred allocation
    assert (e.base * PAGE_SIZE = INVALID_PHYS)
    pure w

/-- `unmapUserSpace`, with the directory that takes the place of the old one. -/
def unmapUserSpace (w : World) (root : Nat) : m (World × PageDirectory) := do
  let (w, pd) ← mapKernel w
  let w ← forEachUserPage World.tables freeUserPage root w
  let w ← release w root
  pure (w, pd)

end Destruction

/-! ## Cloning -/

section Clone

variable {C : Type}

/-- `getPhysicalAddress`, which is also where an access goes. -/
def getPhysicalAddress (w : World) (root : Nat) (v : VAddr) : Option (Option Nat) := do
  match ← getEntry w.tables 0 3 root v with
  | none => some none
  | some (t, i) => do
      let e ← w.entry t i
      some (if e.p then some (e.base * PAGE_SIZE) else none)

def bufferPage : VAddr := 0xffffffffaa000000

/-- What `TaskManager::clone` does with a page, with the contents of the frames. -/
def clonePage (pd newPd : Nat) (s : World × (Nat → C)) (e : Entry) (addr : VAddr) :
    Option (World × (Nat → C)) := do
  let (w, physaddr) ← mapPage s.1 newPd addr e.getAttributes
  if e.getAttributes.testBit 3 then some (w, s.2)
  else do
    let w ← mapPageTo w pd bufferPage physaddr (ATTR_RW + ATTR_NOEXEC)
    -- `memcpy`, through the directory of the task
    let dst ← ← getPhysicalAddress w pd bufferPage
    let src ← ← getPhysicalAddress w pd addr
    let mem := update s.2 (dst / PAGE_SIZE) (s.2 (src / PAGE_SIZE))
    let (w, _) ← unmapPage w pd bufferPage
    some (w, mem)

/-- `TaskManager::clone`, as far as memory goes: the new directory and the new stack. -/
def clone (s : World × (Nat → C)) (pd : Nat) :
    Option ((World × (Nat → C)) × PageDirectory × Nat) := do
  let (w, newPd) ← mapKernel s.1
  let (w, stack, _) ← stackKmalloc w
  let s ← forEachUserPage (fun s => World.tables s.1) (clonePage pd newPd.root) pd (w, s.2)
  some (s, newPd, stack)

end Clone

end Flix.Paging

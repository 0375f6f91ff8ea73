import Flix.Memory.KHeap
import Flix.Paging.Model

/-!
# The information of the boot loader

`Multiboot.cpp`, with what it needs of `Memory.cpp`. The boot loader leaves a block
of tags: two words in front (its size, and one that is reserved), and then the tags,
each with its type and its size and at an address that is a multiple of 8. A tag of
type 0 closes it.

`handle` goes through the tags. Called by `prepareMemory` it marks the frames that
must not be given out: those of memory that is not available, and those of modules.
A frame that is marked twice fails an assertion, as a `PANIC` is `none`.

All loops of the source are bounded by fuel, and without enough of it the answer is
`none`.
-/

namespace Flix.Boot

open Bytes KHeap

/-! ## Tags -/

/-- `sizeof(TagsHeader)`. -/
def headerSize : Nat := 8

/-- `Tag::type`. -/
def tagType (m : Mem) (tag : Nat) : Nat := readLE m tag 4

/-- `Tag::size`. -/
def tagSize (m : Mem) (tag : Nat) : Nat := readLE m (tag + 4) 4

/-- The tag behind. -/
def nextTag (m : Mem) (tag : Nat) : Nat := ptrAlignSup (tag + tagSize m tag) 8

/-- The loop of `handle`, with what is done for a tag. -/
def handleLoop {σ : Type} (m : Mem) (f : σ → Nat → Option σ) : Nat → Nat → σ → Option σ
  | 0, _, _ => none
  | fuel + 1, tag, s =>
    if tagType m tag ≠ 0 then do
      let s ← f s tag
      handleLoop m f fuel (nextTag m tag) s
    else some s

/-! ## Frames -/

/-- `Memory`. -/
structure Memory where
  frames : List Bool
  usedPageCount : Nat
  deriving DecidableEq

/-- `Memory::setPageUsed`. -/
def Memory.setPageUsed (mem : Memory) (page : Nat) : Option Memory := do
  let frames ← Paging.setPageUsed mem.frames page
  some ⟨frames, mem.usedPageCount + 1⟩

/-- `Memory::completeRangeUsed`, from `page` on for `n` pages. -/
def Memory.completeRangeUsed (mem : Memory) (page : Nat) : Nat → Option Memory
  | 0 => some mem
  | n + 1 => do
      let mem ← if mem.frames.length ≤ page ∨ mem.frames[page]? = some false
        then mem.setPageUsed page else some mem
      mem.completeRangeUsed (page + 1) n

/-- `Memory::getFreePage`. -/
def Memory.getFreePage (mem : Memory) : Option (Memory × Nat) := do
  let (frames, page) ← Paging.getFreePage mem.frames
  some (⟨frames, mem.usedPageCount + 1⟩, page)

/-- `Memory::setPageFree`. -/
def Memory.setPageFree (mem : Memory) (page : Nat) : Option Memory := do
  let frames ← Paging.setPageFree mem.frames page
  some ⟨frames, mem.usedPageCount - 1⟩

/-! ## `prepareMemory` -/

/-- The loop of `handleModule`, called by `prehandleModule`. -/
def moduleLoop (lastPAddr : Nat) : Nat → Nat → Memory → Option Memory
  | 0, _, _ => none
  | fuel + 1, paddr, mem =>
    if paddr < lastPAddr then do
      let mem ← mem.setPageUsed (paddr / Paging.PAGE_SIZE)
      moduleLoop lastPAddr fuel (paddr + Paging.PAGE_SIZE) mem
    else some mem

def modStart (m : Mem) (mod : Nat) : Nat := readLE m (mod + 8) 4
def modEnd (m : Mem) (mod : Nat) : Nat := readLE m (mod + 12) 4

def prehandleModule (m : Mem) (mod : Nat) (mem : Memory) : Option Memory :=
  moduleLoop (modEnd m mod) (modEnd m mod + 1) (modStart m mod) mem

def baseAddr (m : Mem) (entry : Nat) : Nat := readLE m entry 8
def entryLength (m : Mem) (entry : Nat) : Nat := readLE m (entry + 8) 8
def entryType (m : Mem) (entry : Nat) : Nat := readLE m (entry + 16) 4

/-- The loop of `handleMemoryMapEntry`, over `n` pages. -/
def entryLoop (page : Nat) : Nat → Memory → Option Memory
  | 0, mem => some mem
  | n + 1, mem => do
      let mem ← mem.setPageUsed page
      entryLoop (page + 1) n mem

/-- `handleMemoryMapEntry`. Base and length are rounded each for itself. -/
def handleMemoryMapEntry (m : Mem) (entry : Nat) (mem : Memory) : Option Memory :=
  -- if the segment is free to use, skip it
  if entryType m entry = 1 then some mem
  else
    let page := baseAddr m entry / 0x1000
    let lastPage := page + (entryLength m entry + 0xfff) % 2 ^ 64 / 0x1000
    entryLoop page (lastPage - page) mem

def mapEntrySize (m : Mem) (map : Nat) : Nat := readLE m (map + 8) 4

/-- The loop of `prehandleMemoryMap`. -/
def memoryMapLoop (m : Mem) (entrySize stop : Nat) : Nat → Nat → Memory → Option Memory
  | 0, _, _ => none
  | fuel + 1, entry, mem =>
    if entry + entrySize < stop then do
      let mem ← handleMemoryMapEntry m entry mem
      memoryMapLoop m entrySize stop fuel (entry + entrySize) mem
    else some mem

/-- `prehandleMemoryMap`. The size is that of the whole tag, and is counted from its end. -/
def prehandleMemoryMap (m : Mem) (map : Nat) (mem : Memory) : Option Memory :=
  let entry := map + 16
  let stop := entry + tagSize m map
  memoryMapLoop m (mapEntrySize m map) stop (tagSize m map + 1) entry mem

def prehandleTag (m : Mem) (tag : Nat) (mem : Memory) : Option Memory :=
  if tagType m tag = 3 then prehandleModule m tag mem
  else if tagType m tag = 6 then prehandleMemoryMap m tag mem
  else some mem

/-- `handle(mboot, true)`, over at most `fuel` tags. -/
def prepareMemory (m : Mem) (mboot fuel : Nat) (mem : Memory) : Option Memory := do
  let (mem, memFound) ← handleLoop m (fun (mem, memFound) tag => do
    let mem ← prehandleTag m tag mem
    some (mem, memFound || tagType m tag == 6)) fuel (mboot + headerSize) (mem, false)
  -- "Memory tag not found in multiboot information"
  assert (memFound = true)
  some mem

/-! ## Well-formed information -/

/-- The tags `l`, the first at `a` and each next one where the one before ends, up to the end tag
at `e`. -/
def TagChain (m : Mem) : Nat → List Nat → Nat → Prop
  | a, [], e => a = e ∧ tagType m a = 0 ∧ tagSize m a = 8
  | a, t :: l, e => t = a ∧ tagType m a ≠ 0 ∧ 8 ≤ tagSize m a ∧ a + tagSize m a ≤ e ∧
      TagChain m (nextTag m a) l e

/-- A block of `n` bytes at `a`: its size in front, and the tags up to its end. -/
structure WellFormed (m : Mem) (a n : Nat) (tags : List Nat) : Prop where
  aligned : a % 8 = 0
  /-- It is in memory. -/
  inside : a + n ≤ 2 ^ 64
  size : readLE m a 4 = n
  large : 16 ≤ n
  chain : TagChain m (a + headerSize) tags (a + n - 8)

variable {m : Mem}

theorem TagChain.handleLoop_eq {σ : Type} {f : σ → Nat → Option σ} {e : Nat} :
    ∀ {tags : List Nat} {t fuel : Nat} {s : σ}, TagChain m t tags e → tags.length < fuel →
      handleLoop m f fuel t s = tags.foldlM f s
  | [], t, fuel, s, hc, hf => by
    obtain ⟨k, rfl⟩ : ∃ k, fuel = k + 1 := ⟨fuel - 1, by omega⟩
    rw [handleLoop, if_neg (not_not.mpr hc.2.1)]
    rfl
  | u :: tags, t, fuel, s, hc, hf => by
    obtain ⟨rfl, htype, -, -, hc⟩ := hc
    rw [length_cons] at hf
    obtain ⟨k, rfl⟩ : ∃ k, fuel = k + 1 := ⟨fuel - 1, by omega⟩
    rw [handleLoop, if_pos htype]
    refine congrArg _ (funext fun s' => ?_)
    exact TagChain.handleLoop_eq hc (by omega)

theorem TagChain.length_le {e : Nat} (he : e + 8 ≤ 2 ^ 64) : ∀ {tags : List Nat} {t : Nat},
    TagChain m t tags e → t + 8 * tags.length ≤ e
  | [], t, hc => by
    rw [hc.1]
    exact le_rfl
  | u :: tags, t, hc => by
    obtain ⟨-, -, h8, hle, hc⟩ := hc
    have hrest := TagChain.length_le he hc
    have hnext : t + tagSize m t ≤ nextTag m t := by
      unfold nextTag ptrAlignSup
      omega
    rw [length_cons]
    omega

theorem WellFormed.length_lt {a n : Nat} {tags : List Nat}
    (hw : WellFormed m a n tags) : tags.length < n := by
  have hlarge := hw.large
  have hin := hw.inside
  have hle := hw.chain.length_le (by omega)
  omega

end Flix.Boot

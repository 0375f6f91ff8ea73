import Mathlib.Data.List.GetD
import Flix.Lib.Bytes
import Flix.Fs.FileHandle
import Flix.Paging.Model

/-!
# Loading a program

`elf::exec` maps the segments of a program, clears them, reads them from the file, and
puts the arguments on a new stack. The file says where all of this goes, and of what the
file says only the magic number is looked at.

The memory is that of the task, by virtual address. Beside it stands a list of events: the
ranges that were computed for segments, and what was written, each with the pages that
this call had mapped until then. `lseek` and `read` of a file never fail.
-/

namespace Flix.Exec

open Bytes Paging Fs

/-- A file that is open, and what its reader may come across: the memory around its bytes, and
what the local variables hold before they are read into, the header first. -/
structure File where
  data : Str
  around : Nat → UInt8
  locals : Nat → Mem

/-- The handle after `lseek(pos, Begin)`. -/
def File.handle (f : File) (pos : Nat) : CpioFileHandle :=
  (⟨f.data, 0⟩ : CpioFileHandle).lseek pos .Begin

/-- The `k`th local variable, of `size` bytes, after it was read from `pos` on. A read may end
early, and nobody looks at its result. -/
def File.readLocal (f : File) (k pos size : Nat) : Mem := fun j =>
  ((f.handle pos).copy f.around size).getD j (f.locals k j)

/-! ## Headers -/

/-- `ElfHeader`. -/
def File.header (f : File) : Mem := f.readLocal 0 0 64

def e_entry (hdr : Mem) : Nat := readLE hdr 24 8
def e_phoff (hdr : Mem) : Nat := readLE hdr 32 8
def e_phentsize (hdr : Mem) : Nat := readLE hdr 54 2
def e_phnum (hdr : Mem) : Nat := readLE hdr 56 2

/-- `checkHeader`. -/
def checkHeader (hdr : Mem) : Bool :=
  hdr 0 == 0x7f && hdr 1 == 69 && hdr 2 == 76 && hdr 3 == 70

/-- `ElfProgramHeader`. -/
structure ProgramHeader where
  p_type : Nat
  p_offset : Nat
  p_vaddr : Nat
  p_filesz : Nat
  p_memsz : Nat
  deriving DecidableEq

def PT_LOAD : Nat := 1

def ProgramHeader.read (m : Mem) : ProgramHeader where
  p_type := readLE m 0 4
  p_offset := readLE m 8 8
  p_vaddr := readLE m 16 8
  p_filesz := readLE m 32 8
  p_memsz := readLE m 40 8

/-- `currentOffset` in round `i`. -/
def headerOffset (hdr : Mem) (i : Nat) : Nat := (e_phoff hdr + i * e_phentsize hdr) % 2 ^ 64

/-- The headers, as `exec` comes to them. -/
def File.programHeaders (f : File) : List ProgramHeader :=
  (List.range (e_phnum f.header)).map fun i =>
    .read (f.readLocal (i + 1) (headerOffset f.header i) 56)

/-! ## What is written -/

inductive Event where
  /-- The range of a segment is computed. -/
  | range (start size : Nat)
  /-- Bytes are written, with the pages mapped so far. -/
  | write (start : Nat) (bytes : List UInt8) (mapped : List VAddr)

/-- Bytes written from `start` on, at addresses of 64 bits. -/
def overwrite (m : Mem) (start : Nat) (bytes : List UInt8) : Mem := fun a =>
  bytes.getD ((2 ^ 64 - start + a) % 2 ^ 64) (m a)

structure Loading where
  world : World
  mapped : List VAddr
  mem : Mem
  events : List Event

/-- `mapPage`, page after page. -/
def mapPages (w : World) (root : Nat) (vs : List VAddr) : Option World :=
  vs.foldlM (fun w v => (mapPage w root v (ATTR_RW + ATTR_PUBLIC)).map Prod.fst) w

def Loading.map (l : Loading) (root : Nat) (vs : List VAddr) : Option Loading := do
  let w ← mapPages l.world root vs
  some { l with world := w, mapped := l.mapped ++ vs }

def Loading.write (l : Loading) (start : Nat) (bytes : List UInt8) : Loading :=
  { l with
    mem := overwrite l.mem start bytes
    events := l.events ++ [.write start bytes l.mapped] }

/-- The addresses of a loop over `n` pages, in steps of `PAGE_SIZE`. -/
def pagesFrom (start n : Nat) : List VAddr :=
  (List.range n).map fun k => BitVec.ofNat 64 (start + k * 4096)

/-! ## Segments -/

/-- The addresses of the loop that maps a segment. Its end is of 64 bits. The loop does not come
to the end of the address space, where `mapPage` panics. -/
def ProgramHeader.pages (h : ProgramHeader) : List VAddr :=
  let stop := (h.p_vaddr + h.p_memsz) % 2 ^ 64
  pagesFrom h.p_vaddr ((stop - h.p_vaddr + 4095) / 4096)

/-- The bytes of a segment in the file. -/
def File.segment (f : File) (h : ProgramHeader) : List UInt8 :=
  (f.handle h.p_offset).copy f.around h.p_filesz

/-- What is done with a program header. -/
def loadSegment (f : File) (root : Nat) (l : Loading) (h : ProgramHeader) : Option Loading :=
  if h.p_type ≠ PT_LOAD then some l
  else do
    let l : Loading := { l with events := l.events ++ [.range h.p_vaddr h.p_memsz] }
    let l ← l.map root h.pages
    -- "Zeroing"
    let l := l.write h.p_vaddr (List.replicate h.p_memsz 0)
    -- "FIXME what should we do if filesz > memsz??"
    some (l.write h.p_vaddr (f.segment h))

/-! ## Arguments -/

def stackTop : Nat := 0xf000004000

/-- The new stack, below `stackTop`. -/
def stackPages : List VAddr := pagesFrom 0xf000000000 4

/-- `p - n`, for a pointer to bytes. -/
def back (p n : Nat) : Nat := (2 ^ 64 - n % 2 ^ 64 + p) % 2 ^ 64

/-- The bytes of a pointer. -/
def word (v : Nat) : List UInt8 := (List.range 8).map fun i => UInt8.ofNat (v / 256 ^ i)

/-- The strings of the arguments, from `curPos` down, and where they are. -/
def pushStrings (l : Loading) (curPos : Nat) (address : List Nat) :
    List Str → Loading × Nat × List Nat
  | [] => (l, curPos, address)
  | arg :: args =>
    let curPos := back curPos (arg.length + 1)
    pushStrings (l.write curPos (arg ++ [0])) curPos (address ++ [curPos]) args

/-- The array of pointers. -/
def pushPointers (l : Loading) (curPosAddr : Nat) : List Nat → Loading
  | [] => l
  | add :: address =>
    pushPointers (l.write curPosAddr (word add)) ((curPosAddr + 8) % 2 ^ 64) address

/-- The arguments, below `top`. The result has the stack pointer. -/
def pushArguments (l : Loading) (top : Nat) (args : List Str) : Loading × Nat :=
  -- "TODO check size for overflow"
  let pushed := pushStrings l top [] args
  let address := pushed.2.2
  let curPosAddr := back pushed.2.1 8
  let l := pushed.1.write curPosAddr (word 0)
  let endAddr := back curPosAddr (8 * address.length)
  let l := pushPointers l endAddr address
  let endAddr := back endAddr 8
  (l.write endAddr (word address.length), endAddr)

/-! ## `exec` -/

/-- Where the program starts, in the context of the task. -/
structure Start where
  rip : Nat
  rsp : Nat

/-- `exec`, with the `rflags` of the task. Without a `Start` it returns false; `none` is a panic
or a failed assertion. -/
def exec (f : File) (root : Nat) (args : List Str) (rflags : Nat) (w : World) (m : Mem) :
    Option (Loading × Option Start) :=
  let l : Loading := ⟨w, [], m, []⟩
  if checkHeader f.header = false then some (l, none)
  else do
    let l ← f.programHeaders.foldlM (loadSegment f root) l
    let l ← l.map root stackPages
    let pushed := pushArguments l stackTop args
    -- `rescheduleSelf`: "Interrupts were disabled in a user task"
    assert (rflags.testBit 9 = true)
    some (pushed.1, some ⟨e_entry f.header, pushed.2⟩)

/-! ## Writes -/

section Overwrite

variable {m : Mem} {start a : Nat} {bytes : List UInt8}

theorem overwrite_outside (hlt : start + bytes.length ≤ 2 ^ 64) (ha : a < 2 ^ 64)
    (h : a < start ∨ start + bytes.length ≤ a) : overwrite m start bytes a = m a := by
  have hlen : bytes.length ≤ (2 ^ 64 - start + a) % 2 ^ 64 := by
    rcases h with h | h
    · rw [Nat.mod_eq_of_lt (by omega)]
      omega
    · have hmod : (2 ^ 64 - start + a) % 2 ^ 64 = a - start := by omega
      omega
  rw [overwrite, List.getD_eq_default _ _ hlen]

theorem overwrite_inside (hlt : start + bytes.length ≤ 2 ^ 64) (hle : start ≤ a)
    (ha : a < start + bytes.length) : overwrite m start bytes a = bytes.getD (a - start) 0 := by
  have hmod : (2 ^ 64 - start + a) % 2 ^ 64 = a - start := by omega
  have hidx : a - start < bytes.length := by omega
  rw [overwrite, hmod, List.getD_eq_getElem _ _ hidx, List.getD_eq_getElem _ _ hidx]

theorem length_word (v : Nat) : (word v).length = 8 := by
  rw [word, List.length_map, List.length_range]

/-- A pointer that is stored, in the words of the library. -/
theorem overwrite_word {v : Nat} (hlt : start + 8 ≤ 2 ^ 64) (ha : a < 2 ^ 64) :
    overwrite m start (word v) a = writeLE m start 8 v a := by
  have hlt' : start + (word v).length ≤ 2 ^ 64 := by rw [length_word]; exact hlt
  rw [writeLE]
  split
  · rename_i h
    rw [overwrite_inside hlt' h.1 (by rw [length_word]; exact h.2), word]
    have hidx : a - start < 8 := by omega
    rw [List.getD_eq_getElem _ _ (by simpa using hidx), List.getElem_map, List.getElem_range]
  · rw [overwrite_outside hlt' ha (by rw [length_word]; omega)]

end Overwrite

/-! ## All it does -/

/-- The segments that are loaded. -/
def loads (hs : List ProgramHeader) : List ProgramHeader := hs.filter fun h => h.p_type = PT_LOAD

/-- The memory of a segment, cleared and then read. -/
def File.image (f : File) (m : Mem) (h : ProgramHeader) : Mem :=
  overwrite (overwrite m h.p_vaddr (List.replicate h.p_memsz 0)) h.p_vaddr (f.segment h)

/-- What the segments do, from the pages that are mapped before. -/
def loadEvents (f : File) : List ProgramHeader → List VAddr → List Event
  | [], _ => []
  | h :: hs, mapped =>
    .range h.p_vaddr h.p_memsz ::
      .write h.p_vaddr (List.replicate h.p_memsz 0) (mapped ++ h.pages) ::
        .write h.p_vaddr (f.segment h) (mapped ++ h.pages) ::
          loadEvents f hs (mapped ++ h.pages)

/-- All pages that a program needs before it has arguments. -/
def File.pages (f : File) : List VAddr :=
  (loads f.programHeaders).flatMap ProgramHeader.pages ++ stackPages

/-- Everything but the arguments, in the world that has the pages. -/
def File.loaded (f : File) (m : Mem) (w : World) : Loading where
  world := w
  mapped := f.pages
  mem := (loads f.programHeaders).foldl f.image m
  events := loadEvents f (loads f.programHeaders) []

section All

variable {f : File} {root rflags : Nat} {w : World} {m : Mem} {args : List Str} {l : Loading}

theorem mapPages_append {us vs : List VAddr} :
    mapPages w root (us ++ vs) = (mapPages w root us).bind fun w => mapPages w root vs :=
  List.foldlM_append

/-- The segments map pages, write, and leave events. -/
theorem foldlM_loadSegment (hs : List ProgramHeader) :
    hs.foldlM (loadSegment f root) l =
      (mapPages l.world root ((loads hs).flatMap ProgramHeader.pages)).bind fun w =>
        some ⟨w, l.mapped ++ (loads hs).flatMap ProgramHeader.pages, (loads hs).foldl f.image l.mem,
          l.events ++ loadEvents f (loads hs) l.mapped⟩ := by
  induction hs generalizing l with
  | nil => simp [mapPages, loadEvents, loads]
  | cons h hs ih =>
    rw [foldlM_cons]
    by_cases htype : h.p_type = PT_LOAD
    · have hloads : loads (h :: hs) = h :: loads hs :=
        List.filter_cons_of_pos (by simpa using htype)
      rw [hloads, List.flatMap_cons, mapPages_append, loadSegment, if_neg (not_not.mpr htype)]
      show ((mapPages l.world root h.pages).bind _ >>= _) >>= _ = _
      cases hmap : mapPages l.world root h.pages with
      | none => rfl
      | some w1 =>
        show List.foldlM (loadSegment f root) _ hs = _
        rw [ih]
        simp [Loading.write, loadEvents, File.image]
    · have hloads : loads (h :: hs) = loads hs :=
        List.filter_cons_of_neg (by simpa using htype)
      rw [hloads, loadSegment, if_pos htype]
      exact ih

theorem map_stackPages (f : File) (m : Mem) (w : World) :
    (⟨w, [] ++ (loads f.programHeaders).flatMap ProgramHeader.pages,
      (loads f.programHeaders).foldl f.image m,
      [] ++ loadEvents f (loads f.programHeaders) []⟩ : Loading).map root stackPages
      = (mapPages w root stackPages).map (f.loaded m) := by
  rw [List.nil_append, List.nil_append, Loading.map]
  cases mapPages w root stackPages with
  | none => rfl
  | some w1 => rw [bind_eq_bind, bind_some, map_some, File.loaded, File.pages]

/-- All that `exec` does with a file that has the magic number: pages, segments, arguments. -/
theorem exec_eq (hmagic : checkHeader f.header = true) :
    exec f root args rflags w m =
      (mapPages w root f.pages).bind fun w' =>
        (assert (rflags.testBit 9 = true)).bind fun _ =>
          some ((pushArguments (f.loaded m w') stackTop args).1,
            some ⟨e_entry f.header, (pushArguments (f.loaded m w') stackTop args).2⟩) := by
  have hnot : ¬ checkHeader f.header = false := by simp [hmagic]
  rw [exec, if_neg hnot, foldlM_loadSegment, File.pages, mapPages_append]
  cases mapPages w root ((loads f.programHeaders).flatMap ProgramHeader.pages) with
  | none => rfl
  | some w1 =>
    rw [bind_some, bind_eq_bind, bind_some, map_stackPages, bind_some]
    cases mapPages w1 root stackPages <;> rfl

theorem exec_reject (hmagic : checkHeader f.header = false) :
    exec f root args rflags w m = some (⟨w, [], m, []⟩, none) := by
  rw [exec, if_pos hmagic]

theorem exec_started {st : Start} (h : exec f root args rflags w m = some (l, some st)) :
    checkHeader f.header = true ∧ ∃ w', mapPages w root f.pages = some w' ∧
      pushArguments (f.loaded m w') stackTop args = (l, st.rsp) ∧ st.rip = e_entry f.header := by
  cases hmagic : checkHeader f.header with
  | false =>
    rw [exec_reject hmagic] at h
    cases h
  | true =>
    rw [exec_eq hmagic] at h
    obtain ⟨w', hmap, h⟩ := of_bind h
    obtain ⟨-, h⟩ := of_assert h
    obtain ⟨rfl, hst⟩ := Prod.mk.inj (Option.some.inj h)
    obtain rfl := Option.some.inj hst
    exact ⟨rfl, w', hmap, rfl, rfl⟩

end All

end Flix.Exec

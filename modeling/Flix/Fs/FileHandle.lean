import Flix.Lib.Runs
import Flix.Fs.Cpio

/-!
# Reading a file

A handle has a position, which `lseek` sets to anything and `read` moves on. The bytes
left are a difference of two unsigned numbers, and the copy takes as many bytes as that
from behind the position, with no other look at the end of the file.

So all is well as long as the position is not behind the end. Behind it the difference
wraps and is almost `2 ^ 64`: the copy is of what lies around the buffer of the file, as
many bytes as were asked for.
-/

namespace Flix.Fs

open Runs

/-- `fs::Whence`. -/
inductive Whence where
  | Begin
  | Current
  | End

namespace CpioFileHandle

/-- `CpioFileHandle::lseek`. The result is the new position. -/
def lseek (h : CpioFileHandle) (position : Nat) : Whence → CpioFileHandle
  | .Begin => { h with pos := position }
  | .Current => { h with pos := (h.pos + position) % 2 ^ 64 }
  | .End => { h with pos := (h.data.length + position) % 2 ^ 64 }

/-- What a read is to do. The bytes are those of the file from the position on, and there
may be fewer than were asked for; nothing outside the file is touched. -/
structure Reads (h : CpioFileHandle) (size : Nat) : Prop where
  bytes : ∀ around, h.copy around size = (h.data.drop h.pos).take size
  count : h.copySize size = ((h.data.drop h.pos).take size).length
  position : (h.advance size).pos = h.pos + h.copySize size
  inside : ∀ i ∈ h.copied size, i < h.data.length

end CpioFileHandle

/-- The calls on one handle, with the 64-bit values of their arguments. -/
inductive HandleCall where
  | lseek (position : Fin (2 ^ 64)) (whence : Whence)
  | read (size : Fin (2 ^ 64))

def HandleCall.run (h : CpioFileHandle) : HandleCall → Option CpioFileHandle
  | .lseek position whence => some (h.lseek position whence)
  | .read size => some (h.advance size)

/-- Reads one after the other: what they copy in all, and the handle then. -/
def readAll (around : Nat → UInt8) (h : CpioFileHandle) : List Nat → Str × CpioFileHandle
  | [] => ([], h)
  | size :: sizes =>
    let (bytes, h') := readAll around (h.advance size) sizes
    (h.copy around size ++ bytes, h')

variable {h : CpioFileHandle} {size : Nat} {data : Str}

namespace CpioFileHandle

theorem map_getD_range' (l : Str) (around : Nat → UInt8) (a n : Nat) (h : a + n ≤ l.length) :
    (List.range' a n).map (fun i => l.getD i (around i)) = (l.drop a).take n := by
  refine List.ext_getElem? fun j => ?_
  rw [List.getElem?_take, List.getElem?_drop, List.getElem?_map]
  by_cases hj : j < n
  · have hlt : a + j < l.length := by omega
    rw [if_pos hj, List.getElem?_range' hj, List.getElem?_eq_getElem hlt]
    simp [hlt]
  · have hlen : (List.range' a n).length ≤ j := by rw [List.length_range']; omega
    rw [if_neg hj, List.getElem?_eq_none hlen]
    rfl

theorem take_drop_min :
    (h.data.drop h.pos).take (min size (h.data.length - h.pos)) = (h.data.drop h.pos).take size := by
  rw [← List.length_drop, ← List.take_eq_take_min]

section

variable (hlen : h.data.length < 2 ^ 64) (hpos : h.pos ≤ h.data.length)
include hlen hpos

theorem copySize_inside :
    h.copySize size = min size (h.data.length - h.pos) := by
  have hmod : (h.data.length + 2 ^ 64 - h.pos) % 2 ^ 64 = h.data.length - h.pos := by omega
  rw [copySize, hmod]

theorem copied_inside :
    h.copied size = List.range' h.pos (min size (h.data.length - h.pos)) := by
  rw [copied, copySize_inside hlen hpos, List.range'_eq_map_range]
  refine List.map_congr_left fun j hj => Nat.mod_eq_of_lt ?_
  have hj' := mem_range.mp hj
  omega

theorem reads_of_inside : Reads h size := by
  refine ⟨fun around => ?_, ?_, ?_, fun i hi => ?_⟩
  · rw [copy, copied_inside hlen hpos, map_getD_range' _ _ _ _ (by omega), take_drop_min]
  · rw [copySize_inside hlen hpos, List.length_take, List.length_drop]
  · rw [advance, copySize_inside hlen hpos]
    exact Nat.mod_eq_of_lt (by omega)
  · rw [copied_inside hlen hpos] at hi
    have hi' := List.mem_range'_1.mp hi
    omega

theorem drop_advance :
    (h.advance size).pos ≤ h.data.length ∧
      h.data.drop (h.advance size).pos = (h.data.drop h.pos).drop size := by
  rw [(reads_of_inside hlen hpos).position, copySize_inside hlen hpos, List.drop_drop]
  refine ⟨by omega, ?_⟩
  rcases Nat.le_total size (h.data.length - h.pos) with hle | hle
  · rw [Nat.min_eq_left hle]
  · rw [Nat.min_eq_right hle, List.drop_eq_nil_of_le (by omega), List.drop_eq_nil_of_le (by omega)]

end

/-- Behind the end there is nothing to read, but something is read. -/
theorem not_reads_of_behind (hlt : h.pos < 2 ^ 64) (hpos : h.data.length < h.pos)
    (hsize : size ≠ 0) : ¬ Reads h size := by
  intro hr
  have hcount := hr.count
  rw [List.drop_eq_nil_of_le (Nat.le_of_lt hpos), List.take_nil, List.length_nil, copySize] at hcount
  omega

theorem reads_iff (hlen : h.data.length < 2 ^ 64) (hlt : h.pos < 2 ^ 64) :
    Reads h size ↔ h.pos ≤ h.data.length ∨ size = 0 := by
  constructor
  · intro hr
    by_contra hnot
    rw [not_or, Nat.not_le] at hnot
    exact not_reads_of_behind hlt hnot.1 hnot.2 hr
  · rintro (hpos | rfl)
    · exact reads_of_inside hlen hpos
    · have hzero : h.copySize 0 = 0 := Nat.zero_min _
      refine ⟨fun around => ?_, ?_, ?_, ?_⟩
      · rw [copy, copied, hzero, List.take_zero]
        rfl
      · rw [hzero, List.take_zero]
        rfl
      · rw [advance, hzero]
        exact Nat.mod_eq_of_lt hlt
      · rw [copied, hzero]
        exact fun i hi => absurd hi not_mem_nil

end CpioFileHandle

open CpioFileHandle

/-- Reads that follow each other continue each other. -/
theorem readAll_eq (around : Nat → UInt8) : ∀ (sizes : List Nat) {h : CpioFileHandle},
    h.data.length < 2 ^ 64 → h.pos ≤ h.data.length →
      (readAll around h sizes).1 = (h.data.drop h.pos).take sizes.sum
  | [], h, _, _ => by rw [List.sum_nil, List.take_zero]; rfl
  | size :: sizes, h, hlen, hpos => by
    obtain ⟨hpos', hdrop⟩ : (h.advance size).pos ≤ h.data.length ∧
        h.data.drop (h.advance size).pos = (h.data.drop h.pos).drop size := drop_advance hlen hpos
    have ih := readAll_eq around sizes (h := h.advance size) hlen hpos'
    show h.copy around size ++ (readAll around (h.advance size) sizes).1 = _
    rw [ih, (reads_of_inside hlen hpos).bytes, List.sum_cons, List.take_add]
    have hdata : (h.advance size).data = h.data := rfl
    rw [hdata, hdrop]

theorem advance_exhausted (hlen : h.data.length < 2 ^ 64) (hpos : h.pos = h.data.length) :
    h.copySize size = 0 ∧ h.advance size = h := by
  have hzero : h.copySize size = 0 := by
    rw [copySize_inside hlen (Nat.le_of_eq hpos), hpos, Nat.sub_self, Nat.min_zero]
  refine ⟨hzero, ?_⟩
  rw [advance, hzero, Nat.add_zero, Nat.mod_eq_of_lt (hpos ▸ hlen)]

/-- The file of a handle and the width of its position. -/
structure Opened (data : Str) (h : CpioFileHandle) : Prop where
  data_eq : h.data = data
  pos_lt : h.pos < 2 ^ 64

theorem Opened.run {h' : CpioFileHandle} {call : HandleCall} (ho : Opened data h)
    (hc : call.run h = some h') : Opened data h' := by
  cases call with
  | lseek position whence =>
    cases hc
    cases whence with
    | Begin => exact ⟨ho.data_eq, position.isLt⟩
    | Current => exact ⟨ho.data_eq, Nat.mod_lt _ (by decide)⟩
    | End => exact ⟨ho.data_eq, Nat.mod_lt _ (by decide)⟩
  | read size =>
    cases hc
    exact ⟨ho.data_eq, Nat.mod_lt _ (by decide)⟩

/-- **Reading a file.** After any calls on a handle, a read does what it is to do exactly when the
position is not behind the end of the file, or nothing is asked for. Reads from the start
continue each other, and at the end there is nothing more. -/
theorem handle_reads_iff (hlen : data.length < 2 ^ 64)
    (hs : Reach HandleCall.run (fun _ _ => True) ⟨data, 0⟩ h) :
    h.data = data ∧
      (∀ size : Fin (2 ^ 64), h.Reads size ↔ h.pos ≤ data.length ∨ size.val = 0) ∧
      (h.pos = data.length → ∀ size, h.copySize size = 0 ∧ h.advance size = h) ∧
      ∀ around sizes, (readAll around ⟨data, 0⟩ sizes).1 = data.take sizes.sum := by
  have ho : Opened data h :=
    hs.invariant (I := Opened data) ⟨rfl, Nat.two_pow_pos 64⟩ fun _ _ _ hi _ hc => hi.run hc
  obtain ⟨rfl, hlt⟩ := ho
  refine ⟨rfl, fun size => reads_iff hlen hlt, fun hpos size => advance_exhausted hlen hpos, ?_⟩
  intro around sizes
  exact readAll_eq around sizes hlen (Nat.zero_le _)

theorem handle_reads_iff_behind : ([1, 2, 3] : Str).length < 2 ^ 64 ∧
    ((⟨[1, 2, 3], 5⟩ : CpioFileHandle).Reads 1 ↔ 5 ≤ ([1, 2, 3] : Str).length ∨ 1 = 0) := by
  have hs : Reach HandleCall.run (fun _ _ => True) ⟨[1, 2, 3], 0⟩
      (⟨[1, 2, 3], 5⟩ : CpioFileHandle) :=
    .tail (a := .lseek ⟨5, by decide⟩ .Begin) .start trivial rfl
  exact ⟨by decide, (handle_reads_iff (by decide) hs).2.1 ⟨1, by decide⟩⟩

/-- A file of three bytes, a seek to 5, and a read of one byte: the byte is one that lies behind
the file's buffer. -/
theorem read_behind_the_end :
    Reach HandleCall.run (fun _ _ => True) ⟨[1, 2, 3], 0⟩
      (⟨[1, 2, 3], 5⟩ : CpioFileHandle) ∧
    (∀ around, (⟨[1, 2, 3], 5⟩ : CpioFileHandle).copy around 1 = [around 5]) ∧
    ¬ (⟨[1, 2, 3], 5⟩ : CpioFileHandle).Reads 1 := by
  refine ⟨.tail (a := .lseek ⟨5, by decide⟩ .Begin) .start trivial rfl, fun around => rfl, ?_⟩
  exact not_reads_of_behind (by decide) (by decide) (by decide)

end Flix.Fs

import Flix.Lib.Runs
import Flix.Fs.Lookup
import Mathlib.Logic.Function.Basic

/-!
# The descriptors of a task

`FileManager.cpp`. The table is a vector of handles in which null is a descriptor that
is closed. `open` takes the first of these, or makes the table longer, and the table
never becomes shorter.

What it is for is a partial map from numbers to handles, in which an open gets the
smallest number that is not taken. `Table` is this map and `Table.Step` what the calls
are to do to it. The vector does it all but for one call: `close` looks whether the
number is beyond the vector and not whether the descriptor is open. A descriptor that
was open once and is closed again is within the vector, and can be closed with success
again and again, where `read` and `write` tell that there is no such descriptor.

The file system is a parameter: what `fs::lookup` and `Inode::open` answer.
-/

namespace Flix.Fs

open Runs

/-! ## The model -/

/-- The handles of a task. -/
structure FileManager (η : Type) where
  files : List (Option η)

/-- The calls, with descriptors that are not negative. -/
inductive FileCall where
  | openFile (path : Str)
  | close (fd : Nat)
  | getHandle (fd : Nat)

/-- What they answer. -/
inductive Answer (η : Type) where
  | opened (fd : Except IoError Nat)
  | closed (result : Int)
  | handle (h : Option η)

namespace FileManager

section

variable {ι η : Type} (lookup : Str → Except IoError ι) (openInode : ι → Except IoError η)

/-- The constructor, with the handles of `StdIn` and `StdOut`. -/
def init (stdIn stdOut : η) : FileManager η := ⟨[some stdIn, some stdOut, some stdOut]⟩

/-- `FileManager::open`. -/
def openFile (fm : FileManager η) (path : Str) : FileManager η × Except IoError Nat :=
  match (lookup path).bind openInode with
  | .error e => (fm, .error e)
  | .ok handle =>
    -- find a free entry and return it
    match fm.files.findIdx? (·.isNone) with
    | some i => (⟨fm.files.set i (some handle)⟩, .ok i)
    | none => (⟨fm.files ++ [some handle]⟩, .ok fm.files.length)

/-- `FileManager::close`. -/
def close (fm : FileManager η) (fd : Int) : Option (FileManager η × Int) := do
  assert (fd ≥ 0)
  if fd.toNat ≥ fm.files.length then some (fm, -1)
  else some (⟨fm.files.set fd.toNat none⟩, 0)

/-- `FileManager::getHandle`. -/
def getHandle (fm : FileManager η) (fd : Int) : Option (Option η) := do
  assert (fd ≥ 0)
  if fd.toNat ≥ fm.files.length then some none
  else some fm.files[fd.toNat]?.join

/-- A call, and its answer. -/
def call (fm : FileManager η) : FileCall → Option (FileManager η × Answer η)
  | .openFile path =>
    let (fm, fd) := fm.openFile lookup openInode path
    some (fm, .opened fd)
  | .close fd => do
      let (fm, result) ← fm.close fd
      some (fm, .closed result)
  | .getHandle fd => do
      let h ← fm.getHandle fd
      some (fm, .handle h)

/-- The state after a call. -/
def step (fm : FileManager η) (c : FileCall) : Option (FileManager η) :=
  (fm.call lookup openInode c).map Prod.fst

end

end FileManager

/-! ## The partial map -/

/-- What is open. -/
abbrev Table (η : Type) := Nat → Option η

/-- What a call is to do. -/
inductive Table.Step {ι η : Type} (lookup : Str → Except IoError ι)
    (openInode : ι → Except IoError η) (t : Table η) : FileCall → Table η → Answer η → Prop where
  /-- An open takes the smallest number that is not open. -/
  | opened {path : Str} {h : η} {fd : Nat} :
      (lookup path).bind openInode = .ok h → t fd = none → (∀ n < fd, t n ≠ none) →
      Table.Step lookup openInode t (.openFile path) (Function.update t fd (some h))
        (.opened (.ok fd))
  | failed {path : Str} {e : IoError} : (lookup path).bind openInode = .error e →
      Table.Step lookup openInode t (.openFile path) t (.opened (.error e))
  | closed {fd : Nat} : t fd ≠ none →
      Table.Step lookup openInode t (.close fd) (Function.update t fd none) (.closed 0)
  | notOpen {fd : Nat} : t fd = none →
      Table.Step lookup openInode t (.close fd) t (.closed (-1))
  | handle {fd : Nat} : Table.Step lookup openInode t (.getHandle fd) t (.handle (t fd))

theorem Table.Step.ne_none {ι η : Type} {lookup : Str → Except IoError ι}
    {openInode : ι → Except IoError η} {t t' : Table η} {fd : Nat}
    (h : Table.Step lookup openInode t (.close fd) t' (.closed 0)) : t fd ≠ none := by
  cases h with
  | closed hopen => exact hopen

namespace FileManager

variable {ι η : Type} {lookup : Str → Except IoError ι} {openInode : ι → Except IoError η}

/-- The map that the vector stands for. -/
def table (fm : FileManager η) : Table η := fun fd => fm.files[fd]?.join

/-- The call does what it is to do. -/
def Refines (lookup : Str → Except IoError ι) (openInode : ι → Except IoError η)
    (fm : FileManager η) (c : FileCall) : Prop :=
  ∃ fm' r, fm.call lookup openInode c = some (fm', r) ∧
    Table.Step lookup openInode fm.table c fm'.table r

/-- The descriptor is closed, and in the vector. -/
def Hole (fm : FileManager η) (fd : Nat) : Prop := fd < fm.files.length ∧ fm.table fd = none

variable {fm : FileManager η} {fd : Nat} {path : Str}

theorem table_eq_none_of_le (h : fm.files.length ≤ fd) : fm.table fd = none := by
  unfold table
  rw [List.getElem?_eq_none h]
  rfl

theorem table_set {v : Option η} (h : fd < fm.files.length) :
    (⟨fm.files.set fd v⟩ : FileManager η).table = Function.update fm.table fd v := by
  funext n
  unfold table
  by_cases hn : n = fd
  · subst hn
    simp [h]
  · rw [Function.update_of_ne hn, List.getElem?_set_ne (Ne.symm hn)]

theorem table_append {h : η} : (⟨fm.files ++ [some h]⟩ : FileManager η).table
    = Function.update fm.table fm.files.length (some h) := by
  funext n
  by_cases hn : n = fm.files.length
  · subst hn
    simp [table]
  · rw [Function.update_of_ne hn]
    unfold table
    rcases Nat.lt_or_gt_of_ne hn with hlt | hgt
    · rw [List.getElem?_append_left hlt]
    · rw [List.getElem?_eq_none (by simp; omega), List.getElem?_eq_none (by omega)]

theorem refines_openFile : fm.Refines lookup openInode (.openFile path) := by
  have hcall : fm.call lookup openInode (.openFile path)
      = some ((fm.openFile lookup openInode path).1, .opened (fm.openFile lookup openInode path).2) :=
    rfl
  refine ⟨_, _, hcall, ?_⟩
  unfold openFile
  split
  · exact .failed ‹_›
  · rename_i h hh
    split
    · rename_i i hi
      obtain ⟨hlt, hfree, hbefore⟩ := List.findIdx?_eq_some_iff_getElem.mp hi
      rw [table_set hlt]
      refine .opened hh ?_ fun n hn => ?_
      · simpa [table, hlt] using hfree
      · simpa [table, Nat.lt_trans hn hlt] using hbefore n hn
    · rename_i hi
      rw [table_append]
      refine .opened hh (table_eq_none_of_le (Nat.le_refl _)) fun n hn => ?_
      have hall := List.findIdx?_eq_none_iff.mp hi _ (List.getElem_mem hn)
      simpa [table, hn, Option.isSome_iff_ne_none] using hall

theorem call_close_of_le (h : fm.files.length ≤ fd) :
    fm.call lookup openInode (.close fd) = some (fm, .closed (-1)) := by
  unfold call close
  dsimp only
  rw [Int.toNat_natCast, if_pos h]
  rfl

theorem call_close_of_lt (h : fd < fm.files.length) :
    fm.call lookup openInode (.close fd) = some (⟨fm.files.set fd none⟩, .closed 0) := by
  unfold call close
  dsimp only
  rw [Int.toNat_natCast, if_neg (Nat.not_le.mpr h)]
  rfl

theorem call_getHandle :
    fm.call lookup openInode (.getHandle fd) = some (fm, .handle (fm.table fd)) := by
  unfold call getHandle
  dsimp only
  rw [Int.toNat_natCast]
  by_cases h : fm.files.length ≤ fd
  · rw [if_pos h, table_eq_none_of_le h]
    rfl
  · rw [if_neg h]
    rfl

/-- `close` is right unless the descriptor has been closed already. -/
theorem refines_close_iff : fm.Refines lookup openInode (.close fd) ↔ ¬ fm.Hole fd := by
  rcases Nat.lt_or_ge fd fm.files.length with hlt | hle
  · constructor
    · intro ⟨fm', r, hcall, hstep⟩ hole
      rw [call_close_of_lt hlt] at hcall
      obtain ⟨rfl, rfl⟩ := Prod.mk.inj (Option.some.inj hcall)
      -- it answers 0, which is for descriptors that are open
      exact hstep.ne_none hole.2
    · intro hole
      refine ⟨_, _, call_close_of_lt hlt, ?_⟩
      rw [table_set hlt]
      exact .closed fun h => hole ⟨hlt, h⟩
  · refine iff_of_true ?_ fun h => Nat.not_lt.mpr hle h.1
    exact ⟨fm, _, call_close_of_le hle, .notOpen (table_eq_none_of_le hle)⟩

/-! ## Any calls -/

/-- A call `c` of a sequence of calls, and the state it finds. -/
def Finds (lookup : Str → Except IoError ι) (openInode : ι → Except IoError η)
    (fm₀ : FileManager η) (calls : List FileCall) (fm : FileManager η) (c : FileCall) : Prop :=
  ∃ before after, calls = before ++ c :: after ∧
    run (step lookup openInode) fm₀ before = some fm

/-- **The table is a partial map**, in a sequence of calls from a new `FileManager` on, exactly
as long as no descriptor is closed that has been closed already. -/
theorem calls_refine_iff (lookup : Str → Except IoError ι) (openInode : ι → Except IoError η)
    (stdIn stdOut : η) (calls : List FileCall) :
    (∀ fm c, Finds lookup openInode (init stdIn stdOut) calls fm c →
      fm.Refines lookup openInode c) ↔
    ∀ fm fd, Finds lookup openInode (init stdIn stdOut) calls fm (.close fd) → ¬ fm.Hole fd := by
  constructor
  · intro h fm fd hf
    exact refines_close_iff.mp (h fm (.close fd) hf)
  · intro h fm c hf
    cases c with
    | openFile path => exact refines_openFile
    | close fd => exact refines_close_iff.mpr (h fm fd hf)
    | getHandle fd => exact ⟨fm, _, call_getHandle, .handle⟩

/-- The standard output is closed twice. -/
theorem close_twice : ¬ ∀ fm c,
    Finds (fun _ => .error .NotFound) (fun _ : Unit => .error .NotAFile) (init 0 1)
      [.close 1, .close 1] fm c →
    Refines (fun _ => .error .NotFound) (fun _ : Unit => .error .NotAFile) (η := Nat) fm c := by
  intro h
  refine refines_close_iff.mp (h ⟨[some 0, none, some 1]⟩ (.close 1) ⟨[.close 1], [], rfl, rfl⟩) ?_
  exact ⟨by decide, rfl⟩

end FileManager

end Flix.Fs

import Flix.Fs.Split
import Flix.Lib.Runs

/-!
# Looking up a path

`fs::lookup` walks a path from inode to inode and follows a symbolic link at its end. An
inode is whatever a file system makes of it: `FileSystem` has the virtual functions of
`Inode` that the walk calls.

The function calls itself for every link. `round` is one call without the next, and
`lookup` has a fuel for the number of calls.
-/

namespace Flix.Fs

def slash : UInt8 := 47

/-- What a `const char*` into a string stands for: the bytes up to the first NUL. -/
def cstr (s : Str) : Str := s.takeWhile (· ≠ 0)

def S_IFMT : UInt16 := 0o170000
def S_IFLNK : UInt16 := 0o120000
def S_IFREG : UInt16 := 0o100000
def S_IFDIR : UInt16 := 0o040000

def MAX_SYMLINK_INDIRECTIONS : UInt8 := 128
def MAX_PATH_LENGTH : Nat := 256

inductive IoError where
  | InvalidPath
  | NotFound
  | NotSeekable
  | NotReadable
  | NotWritable
  | NotADirectory
  | NotAFile
  deriving DecidableEq

inductive LookupOptions where
  | None
  | NoFollowSymlink
  deriving DecidableEq

/-- A file system with inodes `ι`. The root is no symbolic link, and a symbolic link has no
entries. -/
structure FileSystem (ι : Type) where
  root : ι
  i_mode : ι → UInt16
  i_size : ι → Nat
  lookup : ι → Str → Except IoError ι
  /-- `open`, and the `i_size` bytes that are then read. -/
  contents : ι → Except IoError Str
  root_mode : i_mode root &&& S_IFMT ≠ S_IFLNK
  link_lookup : ∀ i, i_mode i &&& S_IFMT = S_IFLNK → ∀ name, ∃ e, lookup i name = .error e

/-- The parts of a path. -/
abbrev parts (path : Str) : List Str := split path slash true

section

variable {ι : Type} (fs : FileSystem ι)

/-! ## `lookup` -/

/-- The loop over the parts: the inode reached, and the one before it. -/
def walk : ι → Option ι → List Str → Except IoError (ι × Option ι)
  | curInode, lastLevel, [] => .ok (curInode, lastLevel)
  | curInode, _, part :: ps =>
    match fs.lookup curInode (cstr part) with
    | .error _ => .error .NotFound
    | .ok next => walk next (some curInode) ps

/-- What a call comes to: a result, or the next call. -/
inductive Round (ι : Type) where
  | done (result : Except IoError ι)
  | follow (lastLevel : Option ι) (path : Str)

/-- What `lookup` does with the inode at the end of the path. -/
def finish (options : LookupOptions) (curInode : ι) (lastLevel : Option ι) : Round ι :=
  if fs.i_mode curInode &&& S_IFMT ≠ S_IFLNK ∨ options = .NoFollowSymlink then
    .done (.ok curInode)
  else if MAX_PATH_LENGTH < fs.i_size curInode then .done (.error .InvalidPath)
  else
    match fs.contents curInode with
    | .error e => .done (.error e)
    -- the buffer is zero behind the bytes that are read
    | .ok data => .follow lastLevel (cstr (data.take (fs.i_size curInode)))

/-- One call of `lookup`, up to the next. -/
def round (options : LookupOptions) (inode : ι) (path : Str) : Round ι :=
  if path = [] then .done (.ok inode)
  else
    match walk fs (if path.head? = some slash then fs.root else inode) none (parts path) with
    | .error e => .done (.error e)
    | .ok r => finish fs options r.1 r.2

/-- `lookup`, for at most `fuel` calls. A call with a null pointer comes to nothing. -/
def lookup (options : LookupOptions) : Nat → ι → Str → UInt8 → Option (Except IoError ι)
  | 0, _, _, _ => none
  | fuel + 1, inode, path, indirectionLeft =>
    match round fs options inode path with
    | .done result => some result
    | .follow none _ => none
    | .follow (some lastLevel) target => lookup options fuel lastLevel target (indirectionLeft - 1)

/-- `lookup` of an absolute path. -/
def lookupPath (options : LookupOptions) (fuel : Nat) (path : Str) : Option (Except IoError ι) :=
  if path = [] then some (.error .InvalidPath)
  else if path.head? ≠ some slash then some (.error .InvalidPath)
  else lookup fs options fuel fs.root ((cstr path).drop 1) MAX_SYMLINK_INDIRECTIONS

/-- A path is found. -/
def FindsPath (options : LookupOptions) (path : Str) (i : ι) : Prop :=
  ∃ fuel, lookupPath fs options fuel path = some (.ok i)

end

/-! ## The parts of a path -/

theorem parts_append (a b : Str) : parts (a ++ slash :: b) = parts a ++ parts b :=
  split_append a b slash true

/-- A path that is not empty and does not start with a slash has parts. -/
theorem parts_ne_nil {a : Str} (ha : a ≠ []) (hrel : a.head? ≠ some slash) : parts a ≠ [] := by
  obtain ⟨p, ps, hcomps⟩ := List.exists_cons_of_ne_nil (split_ne_nil a slash)
  have hjoin := intercalate_split a slash
  rw [hcomps] at hjoin
  have hp : p ≠ [] := by
    rintro rfl
    cases ps with
    | nil => exact ha hjoin.symm
    | cons q ps =>
      rw [← hjoin] at hrel
      exact hrel rfl
  rw [parts, split_merge, hcomps]
  exact List.ne_nil_of_mem (List.mem_filter.mpr ⟨mem_cons_self, decide_eq_true hp⟩)

/-- A path without parts starts with a slash, or is empty. -/
theorem head_of_parts_eq_nil {a : Str} (ha : a ≠ []) (h : parts a = []) :
    a.head? = some slash := by
  by_contra hrel
  exact parts_ne_nil ha hrel h

section

variable {ι : Type} {fs : FileSystem ι} {options : LookupOptions} {i d : ι} {l l' : Option ι}
  {a b path : Str} {ps qs : List Str}

/-! ## Walks -/

theorem walk_append : walk fs i l (ps ++ qs) = (walk fs i l ps).bind fun r => walk fs r.1 r.2 qs := by
  induction ps generalizing i l with
  | nil => rfl
  | cons p ps ih =>
    rw [List.cons_append, walk, walk]
    cases fs.lookup i (cstr p) with
    | error e => rfl
    | ok next => exact ih

/-- Where a walk starts is of no interest once there is a part. -/
theorem walk_last (hps : ps ≠ []) : walk fs i l ps = walk fs i l' ps := by
  cases ps with
  | nil => exact absurd rfl hps
  | cons p ps => rw [walk, walk]

/-- The inode before the last is there, when there was a part to walk. -/
theorem walk_lastLevel (hps : ps ≠ []) (h : walk fs i l ps = .ok (d, l')) : l' ≠ none := by
  induction ps generalizing i l with
  | nil => exact absurd rfl hps
  | cons p ps ih =>
    rw [walk] at h
    split at h
    · cases h
    · cases ps with
      | nil =>
        cases h
        exact Option.some_ne_none _
      | cons q ps => exact ih (List.cons_ne_nil q ps) h

theorem walk_link (hlink : fs.i_mode i &&& S_IFMT = S_IFLNK) (hps : ps ≠ []) :
    walk fs i l ps = .error .NotFound := by
  cases ps with
  | nil => exact absurd rfl hps
  | cons p ps =>
    obtain ⟨e, he⟩ := fs.link_lookup i hlink (cstr p)
    rw [walk, he]

/-! ## Calls -/

theorem finish_follow {t : Str} (h : finish fs options d l = .follow l' t) :
    l' = l ∧ fs.i_mode d &&& S_IFMT = S_IFLNK := by
  unfold finish at h
  split at h
  · cases h
  rename_i hlink
  split at h
  · cases h
  split at h
  · cases h
  cases h
  exact ⟨rfl, not_not.mp (not_or.mp hlink).1⟩

/-- The next call is never one with a null pointer. -/
theorem round_follow {t : Str} (h : round fs options i path = .follow l t) : l ≠ none := by
  unfold round at h
  split at h
  · cases h
  rename_i hne
  split at h
  · cases h
  rename_i r hwalk
  obtain ⟨rfl, hlink⟩ := finish_follow h
  -- without parts the walk is at the root, which is no link
  refine walk_lastLevel (fun hnil => ?_) hwalk
  rw [hnil, if_pos (head_of_parts_eq_nil hne hnil)] at hwalk
  cases hwalk
  exact fs.root_mode hlink

end

end Flix.Fs

import Mathlib.Data.List.TakeWhile
import Flix.Fs.Cpio
import Flix.Lib.Bytes

/-!
# Reading an archive

`readArchive` goes through an archive in the old binary cpio format: a header of 26
bytes, the name with its NUL, the data, name and data each filled up to an even number
of bytes. An entry named `TRAILER!!!` ends it.

`encode` is the archive that holds given entries.
-/

namespace Flix.Fs

open Bytes

/-! ## `readArchive` -/

/-- The `n` bytes at `a`. -/
def slice (m : Mem) (a n : Nat) : Str := (List.range n).map fun i => m (a + i)

/-- `TRAILER!!!` -/
def TRAILER : Str := [84, 82, 65, 73, 76, 69, 82, 33, 33, 33]

/-- The loop of `readArchive`: the children of the root, where it reads, and whether it is through. -/
structure Reader where
  children : List CpioInode
  ptr : Nat
  done : Bool

/-- One round of the loop. -/
def readEntry (m : Mem) (s : Reader) : Option Reader := do
  assert (s.done = false)
  -- "invalid magic number in cpio file"
  assert (readLE m s.ptr 2 = 0o070707)
  let mode := UInt16.ofNat (readLE m (s.ptr + 6) 2)
  let namesize := readLE m (s.ptr + 20) 2
  let filesize := readLE m (s.ptr + 22) 2 * 2 ^ 16 + readLE m (s.ptr + 24) 2
  let name := s.ptr + 26
  -- there is no string of length -1
  assert (0 < namesize)
  let sname := slice m name (namesize - 1)
  if sname = TRAILER then some { s with done := true }
  else do
    let ptr := name + namesize + namesize % 2
    let r ← makeFile (fun n => .file n mode filesize (slice m ptr filesize)) s.children [] (cstr sname)
    some ⟨r.1, ptr + filesize + filesize % 2, false⟩

/-- The loop, for at most `fuel` rounds. -/
def readLoop (m : Mem) : Nat → Reader → Option (List CpioInode)
  | 0, _ => none
  | fuel + 1, s => do
      let s ← readEntry m s
      if s.done = true then some s.children else readLoop m fuel s

def Reader.start (data : Nat) : Reader := ⟨[], data, false⟩

def readArchive (m : Mem) (data fuel : Nat) : Option (List CpioInode) :=
  readLoop m fuel (Reader.start data)

/-! ## Archives -/

/-- The fields of a header that nobody reads. -/
structure Meta where
  dev : Nat
  ino : Nat
  uid : Nat
  gid : Nat
  nlink : Nat
  rdev : Nat
  mtime_hi : Nat
  mtime_lo : Nat

structure Entry where
  path : Str
  mode : UInt16
  data : Str
  other : Meta

def le16 (n : Nat) : Str := [UInt8.ofNat n, UInt8.ofNat (n / 256)]

/-- `CpioFileBlock`. -/
def header (other : Meta) (mode namesize filesize : Nat) : Str :=
  le16 0o070707 ++ (le16 other.dev ++ (le16 other.ino ++ (le16 mode ++ (le16 other.uid ++
    (le16 other.gid ++ (le16 other.nlink ++ (le16 other.rdev ++ (le16 other.mtime_hi ++
      (le16 other.mtime_lo ++ (le16 namesize ++ (le16 (filesize / 2 ^ 16) ++
        le16 (filesize % 2 ^ 16))))))))))))

/-- Filled up to an even number of bytes. -/
def pad (s : Str) : Str := s ++ List.replicate (s.length % 2) 0

def encodeEntry (e : Entry) : Str :=
  header e.other e.mode.toNat (e.path.length + 1) e.data.length ++
    (pad (e.path ++ [0]) ++ pad e.data)

/-- The archive with the entries `es`. -/
def encode : List Entry → Meta → Str
  | [], other => encodeEntry ⟨TRAILER, 0, [], other⟩
  | e :: es, other => encodeEntry e ++ encode es other

/-- The bytes `s` are at `a`. -/
def Stored (m : Mem) (a : Nat) (s : Str) : Prop := slice m a s.length = s

instance (m : Mem) (a : Nat) (s : Str) : Decidable (Stored m a s) :=
  inferInstanceAs (Decidable (_ = _))

section

variable {m : Mem} {a n k : Nat} {s t : Str}

theorem slice_add : slice m a (n + k) = slice m a n ++ slice m (a + n) k := by
  unfold slice
  rw [List.range_add, List.map_append, List.map_map]
  congr 1
  exact List.map_congr_left fun i _ => congrArg m (Nat.add_assoc a n i).symm

theorem length_slice : (slice m a n).length = n := by simp [slice]

theorem stored_append : Stored m a (s ++ t) ↔ Stored m a s ∧ Stored m (a + s.length) t := by
  unfold Stored
  rw [length_append, slice_add]
  constructor
  · intro h
    exact List.append_inj h length_slice
  · rintro ⟨hs, ht⟩
    rw [hs, ht]

theorem Stored.readLE (h : Stored m a (le16 n)) (hn : n < 2 ^ 16) : readLE m a 2 = n := by
  unfold Stored slice le16 at h
  obtain ⟨h0, h1⟩ : m a = UInt8.ofNat n ∧ m (a + 1) = UInt8.ofNat (n / 256) := by
    simpa [List.range_succ] using h
  rw [Bytes.readLE, Bytes.readLE, Bytes.readLE, h0, h1]
  simp
  omega

theorem length_pad : (pad s).length = s.length + s.length % 2 := by simp [pad]

variable {other : Meta}

theorem length_header {mode namesize filesize : Nat} :
    (header other mode namesize filesize).length = 26 := rfl

theorem length_encodeEntry (e : Entry) : (encodeEntry e).length =
    26 + (e.path.length + 1) + (e.path.length + 1) % 2 + e.data.length + e.data.length % 2 := by
  unfold encodeEntry
  rw [length_append, length_append, length_header, length_pad, length_pad,
    length_append]
  simp only [length_cons, List.length_nil]
  omega

theorem stored_header {mode namesize filesize : Nat} (hmode : mode < 2 ^ 16)
    (hname : namesize < 2 ^ 16) (hfile : filesize < 2 ^ 32)
    (h : Stored m a (header other mode namesize filesize)) :
    readLE m a 2 = 0o070707 ∧ readLE m (a + 6) 2 = mode ∧ readLE m (a + 20) 2 = namesize ∧
      readLE m (a + 22) 2 * 2 ^ 16 + readLE m (a + 24) 2 = filesize := by
  unfold header at h
  simp only [stored_append] at h
  obtain ⟨hmagic, -, -, hm, -, -, -, -, -, -, hn, hhi, hlo⟩ := h
  refine ⟨hmagic.readLE (by decide), hm.readLE hmode, hn.readLE hname, ?_⟩
  have hhi' : readLE m (a + 22) 2 = filesize / 2 ^ 16 := hhi.readLE (by omega)
  have hlo' : readLE m (a + 24) 2 = filesize % 2 ^ 16 := hlo.readLE (by omega)
  omega

theorem stored_pad (h : Stored m a (pad s)) : slice m a s.length = s :=
  (stored_append.mp h).1

theorem cstr_eq_self (h : 0 ∉ s) : cstr s = s := by
  unfold cstr
  rw [List.takeWhile_eq_self_iff]
  intro c hc
  have hne : c ≠ 0 := fun h0 => h (h0 ▸ hc)
  simpa using hne

/-- The file an entry becomes. -/
def Entry.file (e : Entry) (name : Str) : CpioInode := .file name e.mode e.data.length e.data

/-- The sizes of an entry fit into its header. -/
structure Entry.Fits (e : Entry) : Prop where
  path : e.path.length < 2 ^ 16 - 1
  data : e.data.length < 2 ^ 32

/-- One round reads one entry, and goes on behind it. -/
theorem readEntry_entry {r : Reader} {e : Entry} (hdone : r.done = false) (hfits : e.Fits)
    (hnul : 0 ∉ e.path) (hname : e.path ≠ TRAILER) (h : Stored m r.ptr (encodeEntry e)) :
    readEntry m r = (makeFile e.file r.children [] e.path).bind fun f =>
      some ⟨f.1, r.ptr + (encodeEntry e).length, false⟩ := by
  obtain ⟨hhead, hrest⟩ := stored_append.mp h
  obtain ⟨hpath, hdata⟩ := stored_append.mp hrest
  rw [length_pad] at hdata
  obtain ⟨hmagic, hmode, hnamesize, hfilesize⟩ := stored_header e.mode.toNat_lt
    (by have := hfits.path; omega) hfits.data hhead
  have hlen : (e.path ++ [0]).length = e.path.length + 1 := by simp
  rw [hlen] at hdata
  have hsname : slice m (r.ptr + 26) (e.path.length + 1 - 1) = e.path :=
    (stored_append.mp (stored_append.mp hpath).1).1
  have hbytes : slice m (r.ptr + 26 + (e.path.length + 1) + (e.path.length + 1) % 2) e.data.length
      = e.data := by
    rw [Nat.add_assoc (r.ptr + 26)]
    exact stored_pad hdata
  rw [readEntry, assert_pos hdone, hmagic, hmode, hnamesize, hfilesize]
  dsimp only
  rw [hsname, hbytes, cstr_eq_self hnul]
  show (if e.path = TRAILER then _ else _) = _
  rw [if_neg hname, length_encodeEntry, UInt16.ofNat_toNat]
  congr 1
  funext f
  simp only [Option.some.injEq, Reader.mk.injEq, true_and, and_true]
  omega

theorem readEntry_trailer {r : Reader} (hdone : r.done = false)
    (h : Stored m r.ptr (encodeEntry ⟨TRAILER, 0, [], other⟩)) :
    readEntry m r = some { r with done := true } := by
  obtain ⟨hhead, hrest⟩ := stored_append.mp h
  obtain ⟨hpath, -⟩ := stored_append.mp hrest
  have hlen : TRAILER.length + 1 < 2 ^ 16 := by decide
  obtain ⟨hmagic, -, hnamesize, -⟩ := stored_header (UInt16.toNat_lt 0) hlen (Nat.two_pow_pos 32) hhead
  have hsname : slice m (r.ptr + 26) (TRAILER.length + 1 - 1) = TRAILER :=
    (stored_append.mp (stored_append.mp hpath).1).1
  rw [readEntry, assert_pos hdone, hmagic, hnamesize]
  dsimp only
  rw [hsname]
  rfl

/-! ## Paths and their parts -/

/-- The parts of a path, empty ones too. -/
abbrev comps (path : Str) : List Str := split path slash false

theorem comps_ne_nil (path : Str) : comps path ≠ [] := split_ne_nil path slash

theorem comps_injective {a b : Str} (h : comps a = comps b) : a = b := by
  have hjoin : [slash].intercalate (comps a) = [slash].intercalate (comps b) := by rw [h]
  rwa [intercalate_split, intercalate_split] at hjoin

theorem comps_append (a b : Str) : comps (a ++ slash :: b) = comps a ++ comps b :=
  split_append a b slash false

/-- A path is below another one when it has its parts, and more. -/
theorem comps_prefix_iff (a b : Str) :
    comps a <+: comps b ∧ comps a ≠ comps b ↔ a ++ [slash] <+: b := by
  constructor
  · rintro ⟨⟨t, ht⟩, hne⟩
    have htne : t ≠ [] := by
      rintro rfl
      exact hne (by rw [← ht, append_nil])
    have hfree : ∀ p ∈ t, slash ∉ p := by
      intro p hp
      have hmem : p ∈ comps b := by
        rw [← ht]
        exact mem_append_right _ hp
      exact split_free hmem
    have hjoin : comps ([slash].intercalate t) = t := split_intercalate htne hfree
    refine ⟨[slash].intercalate t, comps_injective ?_⟩
    rw [append_assoc, List.singleton_append, comps_append, hjoin, ht]
  · rintro ⟨t, rfl⟩
    rw [append_assoc, List.singleton_append, comps_append]
    refine ⟨List.prefix_append _ _, fun h => comps_ne_nil t ?_⟩
    exact List.self_eq_append_right.mp h

/-- With parts that are not empty, merging slashes is of no effect. -/
theorem parts_eq_comps {a : Str} (h : [] ∉ comps a) : parts a = comps a := by
  rw [parts, split_merge, List.filter_eq_self]
  intro p hp
  exact decide_eq_true fun hc => h (hc ▸ hp)

end

end Flix.Fs

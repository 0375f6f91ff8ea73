import Flix.Fs.Lookup

/-!
# The tree of an archive

`CpioFs` keeps the entries of a cpio archive in memory, as a tree of folders and files.
`makeFile` puts a file at a path into it and makes the folders that are missing on the
way.

A pointer to an inode is the inode with everything below it. So `makeFile` gets the file
it is to put there, where the source returns a pointer and `readArchive` fills in the
file behind it.
-/

namespace Flix.Fs

/-- `CpioFileInode` and `CpioFolderInode`. -/
inductive CpioInode where
  | file (name : Str) (i_mode : UInt16) (i_size : Nat) (data : Str)
  | folder (name : Str) (children : List CpioInode)

namespace CpioInode

def name : CpioInode → Str
  | file name _ _ _ => name
  | folder name _ => name

/-- `makeFile` sets the mode of the folders it makes. The root, which has no name, has none. -/
def i_mode : CpioInode → UInt16
  | file _ i_mode _ _ => i_mode
  | folder name _ => if name = [] then 0 else S_IFDIR

def i_size : CpioInode → Nat
  | file _ _ i_size _ => i_size
  | folder _ _ => 0

def IsFolder : CpioInode → Prop
  | file _ _ _ _ => False
  | folder _ _ => True

/-- The mode says that it is a directory. -/
def IsDir (i : CpioInode) : Prop := i.i_mode &&& S_IFMT = S_IFDIR

instance (i : CpioInode) : Decidable i.IsDir := inferInstanceAs (Decidable (_ = _))

end CpioInode

/-- The first child with a name. -/
def child (children : List CpioInode) (name : Str) : Option CpioInode :=
  children.find? fun c => c.name = name

/-- `CpioFolderInode::lookup`, and `Inode::lookup` for the others. -/
def CpioInode.lookup : CpioInode → Str → Except IoError CpioInode
  | .folder _ children, name =>
    match child children name with
    | some c => .ok c
    | none => .error .NotFound
  | .file _ _ _ _, _ => .error .NotADirectory

/-- `CpioFileHandle`: the bytes of its file, and `_pos`. -/
structure CpioFileHandle where
  data : Str
  pos : Nat

namespace CpioFileHandle

/-- The number of bytes that `read` copies, and returns. -/
def copySize (h : CpioFileHandle) (size : Nat) : Nat :=
  min size ((h.data.length + 2 ^ 64 - h.pos) % 2 ^ 64)

/-- The places that `read` copies from, counted from the start of the buffer. -/
def copied (h : CpioFileHandle) (size : Nat) : List Nat :=
  (List.range (h.copySize size)).map fun j => (h.pos + j) % 2 ^ 64

/-- The bytes that `read` copies, where `around` is what lies around the buffer. -/
def copy (h : CpioFileHandle) (around : Nat → UInt8) (size : Nat) : Str :=
  (h.copied size).map fun i => h.data.getD i (around i)

/-- The handle after `read`. -/
def advance (h : CpioFileHandle) (size : Nat) : CpioFileHandle :=
  { h with pos := (h.pos + h.copySize size) % 2 ^ 64 }

/-- `CpioFileHandle::read`, with sizes of 64 bits: the bytes, and the handle then. -/
def read (h : CpioFileHandle) (around : Nat → UInt8) (size : Nat) : Str × CpioFileHandle :=
  (h.copy around size, h.advance size)

end CpioFileHandle

/-- `CpioFileInode::open`, and `Inode::open` for the others. -/
def CpioInode.openHandle : CpioInode → Except IoError CpioFileHandle
  | .file _ _ _ data => .ok ⟨data, 0⟩
  | .folder _ _ => .error .NotAFile

/-- The file system of an archive, from the children of its root. -/
def cpioFs (children : List CpioInode) : FileSystem CpioInode where
  root := .folder [] children
  i_mode := CpioInode.i_mode
  i_size := CpioInode.i_size
  lookup := CpioInode.lookup
  -- from the start, so that nothing around the file is read
  contents i := i.openHandle.map fun h => (h.read (fun _ => 0) i.i_size).1
  root_mode := by
    show (if ([] : Str) = [] then (0 : UInt16) else S_IFDIR) &&& S_IFMT ≠ S_IFLNK
    decide
  link_lookup i hi name := by
    cases i with
    | file => exact ⟨_, rfl⟩
    | folder n ch =>
      replace hi : (if n = [] then (0 : UInt16) else S_IFDIR) &&& S_IFMT = S_IFLNK := hi
      split at hi <;> exact absurd hi (by decide)

/-! ## `makeFile` -/

/-- Another inode in the place of the first child with a name. -/
def setChild (name : Str) (i : CpioInode) : List CpioInode → List CpioInode
  | [] => []
  | c :: cs => if c.name = name then i :: cs else c :: setChild name i cs

/-- The part of `makeFile` at a slash: go on in the folder with this name, and make it if there is
no inode of this name. The children then, and whether there is a file. -/
def inFolder (children : List CpioInode) (name : Str)
    (go : List CpioInode → Option (List CpioInode × Bool)) : Option (List CpioInode × Bool) := do
  assert (name ≠ [])
  match child children name with
  | some i =>
    -- "not a directory"
    if ¬ i.IsDir then some (children, false)
    else
      match i with
      | .folder n sub => do
          let r ← go sub
          some (setChild name (.folder n r.1) children, r.2)
      -- the cast to a `CpioFolderInode`
      | .file _ _ _ _ => none
  | none => do
      let r ← go []
      some (children ++ [.folder name r.1], r.2)

/-- `makeFile` from a folder on, with the bytes since `start`. -/
def makeFile (file : Str → CpioInode) :
    List CpioInode → Str → Str → Option (List CpioInode × Bool)
  | children, name, [] => do
      assert (name ≠ [])
      some (children ++ [file name], true)
  | children, name, c :: path =>
    if c = slash then inFolder children name fun sub => makeFile file sub [] path
    else makeFile file children (name ++ [c]) path

/-- The same for a path in its parts. -/
def makeParts (file : Str → CpioInode) : List CpioInode → List Str → Option (List CpioInode × Bool)
  | _, [] => none
  | children, [name] => do
      assert (name ≠ [])
      some (children ++ [file name], true)
  | children, name :: ps => inFolder children name fun sub => makeParts file sub ps

theorem splitLoop_all_ne_nil (val : UInt8) (last str : Str) : splitLoop val false last str ≠ [] := by
  induction str generalizing last with
  | nil => simp [splitLoop]
  | cons c str ih =>
    rw [splitLoop]
    split
    · simp
    · exact ih _

theorem makeParts_cons {file : Str → CpioInode} {children : List CpioInode} {name : Str}
    {ps : List Str} (hps : ps ≠ []) :
    makeParts file children (name :: ps) = inFolder children name fun sub => makeParts file sub ps := by
  cases ps with
  | nil => exact absurd rfl hps
  | cons p ps =>
    rw [makeParts]
    exact hps

theorem makeFile_eq (file : Str → CpioInode) (children : List CpioInode) (name path : Str) :
    makeFile file children name path
      = makeParts file children (splitLoop slash false name path) := by
  induction path generalizing children name with
  | nil => rw [makeFile, splitLoop, if_pos (.inr rfl), makeParts]
  | cons c path ih =>
    rw [makeFile, splitLoop]
    split
    · rw [if_pos (.inl rfl), List.singleton_append, makeParts_cons (splitLoop_all_ne_nil _ _ _)]
      congr 1
      exact funext fun sub => ih sub []
    · exact ih children _

/-! ## What is where in the tree -/

/-- The inode at a path. -/
def node : List CpioInode → List Str → Option CpioInode
  | _, [] => none
  | children, [name] => child children name
  | children, name :: ps =>
    match child children name with
    | some (.folder _ sub) => node sub ps
    | _ => none

section

variable {children ch : List CpioInode} {name p q : Str} {ps qs : List Str} {i : CpioInode}
  {file : Str → CpioInode}

theorem node_cons (hps : ps ≠ []) : node children (name :: ps) =
    match child children name with
    | some (.folder _ sub) => node sub ps
    | _ => none := by
  cases ps with
  | nil => exact absurd rfl hps
  | cons p ps =>
    rw [node]
    exact hps

theorem child_name (h : child children name = some i) : i.name = name := by
  have hp := List.find?_some h
  simpa using hp

theorem node_nil : node [] ps = none := by
  cases ps with
  | nil => rfl
  | cons p ps =>
    cases ps with
    | nil => rfl
    | cons q ps => rfl

theorem child_append_singleton : child (children ++ [i]) name =
    (child children name).or (if i.name = name then some i else none) := by
  unfold child
  by_cases h : i.name = name <;> simp

theorem child_setChild_self (h : child children name ≠ none) (hi : i.name = name) :
    child (setChild name i children) name = some i := by
  induction children with
  | nil => exact absurd rfl h
  | cons c cs ih =>
    rw [setChild]
    split
    · simp [child, hi]
    · rename_i hne
      rw [child, List.find?_cons_of_neg (by simpa using hne)] at h ⊢
      exact ih h

theorem child_setChild_of_ne (hne : q ≠ name) (hi : i.name = name) :
    child (setChild name i children) q = child children q := by
  induction children with
  | nil => rfl
  | cons c cs ih =>
    rw [setChild]
    split
    · rename_i hc
      rw [child, child, List.find?_cons_of_neg (by simpa [hi] using Ne.symm hne),
        List.find?_cons_of_neg (by simpa [hc] using Ne.symm hne)]
    · unfold child at ih ⊢
      rw [List.find?_cons, List.find?_cons, ih]

/-- One folder down. What happens in the folder happens below its name, and the other children
stay. -/
theorem inFolder_spec (hname : name ≠ [])
    (hfolder : ∀ i, child children name = some i → i.IsFolder) :
    ∃ sub, (∀ qs, qs ≠ [] → node children (name :: qs) = node sub qs) ∧
      ∀ (go : List CpioInode → Option (List CpioInode × Bool)) (sub' : List CpioInode) (b : Bool),
        go sub = some (sub', b) → ∃ ch, inFolder children name go = some (ch, b) ∧
          child ch name = some (.folder name sub') ∧
          ∀ q, q ≠ name → child ch q = child children q := by
  cases hc : child children name with
  | none =>
    refine ⟨[], fun qs hqs => ?_, fun go sub' b hgo => ?_⟩
    · rw [node_cons hqs, hc, node_nil]
    · refine ⟨children ++ [.folder name sub'], ?_, ?_, fun q hq => ?_⟩
      · rw [inFolder, assert_pos hname]
        rw [hc]
        rw [hgo]
        rfl
      · rw [child_append_singleton, hc]
        simp [CpioInode.name]
      · rw [child_append_singleton, if_neg (fun h => hq h.symm), Option.or_none]
  | some i =>
    cases i with
    | file => exact (hfolder _ hc).elim
    | folder n sub =>
      have hn : n = name := child_name hc
      subst hn
      have hdir : CpioInode.IsDir (.folder n sub) := by
        show (if n = [] then (0 : UInt16) else S_IFDIR) &&& S_IFMT = S_IFDIR
        rw [if_neg hname]
        decide
      refine ⟨sub, fun qs hqs => ?_, fun go sub' b hgo => ?_⟩
      · rw [node_cons hqs, hc]
      · refine ⟨setChild n (.folder n sub') children, ?_, ?_,
          fun q hq => child_setChild_of_ne hq rfl⟩
        · rw [inFolder, assert_pos hname]
          rw [hc]
          show (if ¬ _ then _ else (go sub).bind _) = _
          rw [if_neg (not_not.mpr hdir), hgo]
          rfl
        · exact child_setChild_self (by rw [hc]; exact Option.some_ne_none _) rfl

/-! ## The way to a path -/

/-- No file is in the way to a path. -/
def Way (children : List CpioInode) (ps : List Str) : Prop :=
  ∀ qs i, qs <+: ps → qs ≠ ps → node children qs = some i → i.IsFolder

theorem Way.head (h : Way children (p :: ps)) (hps : ps ≠ []) :
    ∀ i, child children p = some i → i.IsFolder := by
  intro i hi
  refine h [p] i ?_ (fun heq => hps (List.cons.inj heq).2.symm) hi
  exact (List.prefix_cons_inj p).mpr List.nil_prefix

theorem Way.tail {sub : List CpioInode} (h : Way children (p :: ps))
    (hsub : ∀ qs, qs ≠ [] → node children (p :: qs) = node sub qs) : Way sub ps := by
  intro qs i hpre hne hi
  have hqs : qs ≠ [] := by
    rintro rfl
    cases hi
  exact h (p :: qs) i ((List.prefix_cons_inj p).mpr hpre) (fun heq => hne (List.cons.inj heq).2)
    ((hsub qs hqs).trans hi)

/-! ## All inodes of a tree -/

/-- An inode of the tree with these children at its root. -/
inductive Within (i : CpioInode) : List CpioInode → Prop where
  | top {children : List CpioInode} : i ∈ children → Within i children
  | inside {children sub : List CpioInode} {name : Str} :
      .folder name sub ∈ children → Within i sub → Within i children

/-- Well typed: what has the mode of a directory is a `CpioFolderInode`. -/
def Typed (children : List CpioInode) : Prop := ∀ i, Within i children → i.IsDir → i.IsFolder

theorem child_mem (h : child children name = some i) : i ∈ children := List.mem_of_find?_eq_some h

theorem mem_setChild {j : CpioInode} (h : j ∈ setChild name i children) : j = i ∨ j ∈ children := by
  induction children with
  | nil => cases h
  | cons c cs ih =>
    rw [setChild] at h
    split at h
    · rcases mem_cons.mp h with rfl | h
      · exact .inl rfl
      · exact .inr (mem_cons_of_mem _ h)
    · rcases mem_cons.mp h with rfl | h
      · exact .inr mem_cons_self
      · exact (ih h).imp id (mem_cons_of_mem _)

/-- A folder among children that are otherwise old. -/
theorem within_of_mem {sub : List CpioInode} {n : Str}
    (hmem : ∀ j ∈ ch, j = .folder n sub ∨ j ∈ children) (hi : Within i ch) :
    i.IsFolder ∨ Within i sub ∨ Within i children := by
  cases hi with
  | top hi =>
    rcases hmem i hi with rfl | hi
    · exact .inl trivial
    · exact .inr (.inr (.top hi))
  | inside hf hi =>
    rcases hmem _ hf with heq | hf
    · cases heq
      exact .inr (.inl hi)
    · exact .inr (.inr (.inside hf hi))

/-- Nothing is new in the tree but folders, and what is new in the folder below. -/
theorem inFolder_within {go : List CpioInode → Option (List CpioInode × Bool)} {b : Bool}
    (h : inFolder children name go = some (ch, b)) (hi : Within i ch) :
    i.IsFolder ∨ Within i children ∨ ∃ sub sub', go sub = some (sub', b) ∧ Within i sub' ∧
      ∀ j, Within j sub → Within j children := by
  obtain ⟨-, h⟩ := of_assert h
  split at h
  · rename_i c hc
    split at h
    · cases h
      exact .inr (.inl hi)
    split at h
    · rename_i n sub _
      obtain ⟨⟨sub', b'⟩, hgo, h⟩ := of_bind h
      cases h
      rcases within_of_mem (fun j hj => mem_setChild hj) hi with hi | hi | hi
      · exact .inl hi
      · exact .inr (.inr ⟨sub, sub', hgo, hi, fun j hj => .inside (child_mem hc) hj⟩)
      · exact .inr (.inl hi)
    · cases h
  · obtain ⟨⟨sub', b'⟩, hgo, h⟩ := of_bind h
    cases h
    have hmem : ∀ j ∈ children ++ [.folder name sub'], j = .folder name sub' ∨ j ∈ children := by
      intro j hj
      rcases mem_append.mp hj with hj | hj
      · exact .inr hj
      · exact .inl (mem_singleton.mp hj)
    rcases within_of_mem hmem hi with hi | hi | hi
    · exact .inl hi
    · refine .inr (.inr ⟨[], sub', hgo, hi, fun j hj => ?_⟩)
      cases hj with
      | top hj => cases hj
      | inside hf _ => cases hf
    · exact .inr (.inl hi)

/-- Nothing is new in the tree but folders and the file. -/
theorem makeParts_within {b : Bool} (hfile : ∀ p, ¬ (file p).IsFolder)
    (h : makeParts file children ps = some (ch, b)) (hi : Within i ch) :
    i.IsFolder ∨ Within i children ∨ ∃ p, i = file p := by
  induction ps generalizing children ch i with
  | nil => cases h
  | cons p ps ih =>
    by_cases hps : ps = []
    · subst hps
      obtain ⟨-, h⟩ := of_assert h
      cases h
      cases hi with
      | top hi =>
        rcases mem_append.mp hi with hi | hi
        · exact .inr (.inl (.top hi))
        · exact .inr (.inr ⟨p, mem_singleton.mp hi⟩)
      | inside hf hi =>
        rcases mem_append.mp hf with hf | hf
        · exact .inr (.inl (.inside hf hi))
        · refine absurd ?_ (hfile p)
          rw [← mem_singleton.mp hf]
          trivial
    · rw [makeParts_cons hps] at h
      rcases inFolder_within h hi with hi | hi | ⟨sub, sub', hgo, hi, hold⟩
      · exact .inl hi
      · exact .inr (.inl hi)
      · exact (ih hgo hi).imp id (Or.imp (hold i) id)

/-! ## A file at a path -/

/-- `makeFile` makes a file, if no file is in the way. -/
theorem makeParts_makes (file : Str → CpioInode) (hne : ps ≠ []) (hps : [] ∉ ps)
    (hway : Way children ps) :
    ∃ ch p, makeParts file children ps = some (ch, true) ∧ Within (file p) ch := by
  induction ps generalizing children with
  | nil => exact absurd rfl hne
  | cons p ps ih =>
    have hp : p ≠ [] := fun h => hps (h ▸ mem_cons_self)
    by_cases hnil : ps = []
    · subst hnil
      refine ⟨children ++ [file p], p, ?_, .top (by simp)⟩
      rw [makeParts, assert_pos hp]
      rfl
    · obtain ⟨sub, hsub, hgo⟩ := inFolder_spec hp (hway.head hnil)
      obtain ⟨sub', f, hmake, hf⟩ := ih hnil (fun h => hps (mem_cons_of_mem _ h))
        (hway.tail hsub)
      obtain ⟨ch, hin, hbelow, -⟩ := hgo (fun sub => makeParts file sub ps) sub' true hmake
      exact ⟨ch, f, by rw [makeParts_cons hnil, hin], .inside (child_mem hbelow) hf⟩

/-- It is at its path, where there was nothing before. The folders above it are there, and
everything else is where it was. -/
theorem makeParts_node (hfile : ∀ p, (file p).name = p ∧ ¬ (file p).IsFolder) (hne : ps ≠ [])
    (hps : [] ∉ ps) (hway : Way children ps) (hfree : node children ps = none) :
    ∃ ch, makeParts file children ps = some (ch, true) ∧
      (∃ p, node ch ps = some (file p)) ∧
      (∀ qs, qs <+: ps → qs ≠ ps → qs ≠ [] → ∃ i, node ch qs = some i ∧ i.IsFolder) ∧
      ∀ qs, ¬ qs <+: ps → node ch qs = node children qs := by
  induction ps generalizing children with
  | nil => exact absurd rfl hne
  | cons p ps ih =>
    have hp : p ≠ [] := fun h => hps (h ▸ mem_cons_self)
    -- what is not below `p` is as it was, if the other children are
    have hother : ∀ {ch q qs}, (∀ q, q ≠ p → child ch q = child children q) → q ≠ p →
        node ch (q :: qs) = node children (q :: qs) := by
      intro ch q qs hold hqp
      by_cases hqs : qs = []
      · subst hqs
        exact hold q hqp
      · rw [node_cons hqs, node_cons hqs, hold q hqp]
    by_cases hnil : ps = []
    · subst hnil
      have hc : child children p = none := hfree
      have hnew : child (children ++ [file p]) p = some (file p) := by
        rw [child_append_singleton, hc, if_pos (hfile p).1]
        rfl
      refine ⟨children ++ [file p], ?_, ⟨p, hnew⟩, fun qs hpre hq hqne => ?_, fun qs hpre => ?_⟩
      · rw [makeParts, assert_pos hp]
        rfl
      · rcases List.prefix_cons_iff.mp hpre with rfl | ⟨t, rfl, ht⟩
        · exact absurd rfl hqne
        · exact absurd (by rw [List.prefix_nil.mp ht]) hq
      · cases qs with
        | nil => exact absurd List.nil_prefix hpre
        | cons q qs =>
          by_cases hqp : q = p
          · subst hqp
            have hqs : qs ≠ [] := by
              rintro rfl
              exact hpre List.prefix_rfl
            rw [node_cons hqs, node_cons hqs, hnew, hc]
            cases hf : file q with
            | file => rfl
            | folder => exact absurd (by rw [hf]; trivial) (hfile q).2
          · refine hother (fun q hq => ?_) hqp
            rw [child_append_singleton, if_neg (fun h => hq (h.symm.trans (hfile p).1)),
              Option.or_none]
    · obtain ⟨sub, hsub, hgo⟩ := inFolder_spec hp (hway.head hnil)
      obtain ⟨sub', hmake, ⟨f, hf⟩, hdirs, hrest⟩ := ih hnil
        (fun h => hps (mem_cons_of_mem _ h)) (hway.tail hsub)
        ((hsub ps hnil).symm.trans hfree)
      obtain ⟨ch, hin, hfolder, hold⟩ := hgo (fun sub => makeParts file sub ps) sub' true hmake
      have hbelow : ∀ qs, qs ≠ [] → node ch (p :: qs) = node sub' qs := by
        intro qs hqs
        rw [node_cons hqs, hfolder]
      refine ⟨ch, ?_, ⟨f, (hbelow ps hnil).trans hf⟩, fun qs hpre hq hqne => ?_, fun qs hpre => ?_⟩
      · rw [makeParts_cons hnil, hin]
      · rcases List.prefix_cons_iff.mp hpre with rfl | ⟨t, rfl, ht⟩
        · exact absurd rfl hqne
        · by_cases hqs : t = []
          · subst hqs
            exact ⟨_, hfolder, trivial⟩
          · rw [hbelow t hqs]
            exact hdirs t ht (fun h => hq (by rw [h])) hqs
      · cases qs with
        | nil => exact absurd List.nil_prefix hpre
        | cons q qs =>
          by_cases hqp : q = p
          · subst hqp
            have hpre' : ¬ qs <+: ps := fun h => hpre ((List.prefix_cons_inj q).mpr h)
            have hqs : qs ≠ [] := by
              rintro rfl
              exact hpre' List.nil_prefix
            rw [hbelow qs hqs, hrest qs hpre', hsub qs hqs]
          · exact hother hold hqp

end

end Flix.Fs

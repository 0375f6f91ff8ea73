import Mathlib.Data.List.Induction
import Flix.Fs.Archive
import Flix.Fs.FileHandle

/-!
# What an archive becomes

Reading an archive gives a tree with every entry at its path. That is so as long as the
entries are files and symbolic links.

An entry for a directory becomes a `CpioFileInode` as every other entry does, because
`makeFile` makes nothing else at the end of a path, and gets the mode of a directory
from its header. The next entry below it takes it for a `CpioFolderInode`.
-/

namespace Flix.Fs

open Runs Bytes

/-- The entry of a directory. -/
def Entry.IsDir (e : Entry) : Prop := e.mode &&& S_IFMT = S_IFDIR

instance (e : Entry) : Decidable e.IsDir := inferInstanceAs (Decidable (_ = _))

/-- A path of parts that are not empty, in a C string. -/
def SingleSlashes (path : Str) : Prop := [] ∉ comps path ∧ 0 ∉ path

/-- Entries as cpio writes them. Other entries are below directories only. -/
structure WellFormed (es : List Entry) : Prop where
  fits : ∀ e ∈ es, e.Fits
  path : ∀ e ∈ es, SingleSlashes e.path ∧ e.path ≠ TRAILER
  mode : ∀ e ∈ es, e.mode &&& S_IFMT = S_IFREG ∨ e.mode &&& S_IFMT = S_IFLNK ∨ e.IsDir
  distinct : es.Pairwise fun e e' => e.path ≠ e'.path
  below : ∀ e ∈ es, ∀ e' ∈ es, e.path ++ [slash] <+: e'.path → e.IsDir

/-- The tree holds the entries, with the folders above them, and nothing else. -/
structure Built (children : List CpioInode) (es : List Entry) : Prop where
  files : ∀ e ∈ es, ∃ p, node children (comps e.path) = some (e.file p)
  folders : ∀ e ∈ es, ∀ qs, qs <+: comps e.path → qs ≠ comps e.path → qs ≠ [] →
    ∃ i, node children qs = some i ∧ i.IsFolder
  only : ∀ qs i, node children qs = some i → ∃ e ∈ es, qs <+: comps e.path
  within : ∀ i, Within i children → i.IsFolder ∨ ∃ e ∈ es, ∃ p, i = e.file p

section

variable {es pre post : List Entry} {e : Entry} {children : List CpioInode} {m : Mem} {r : Reader}
  {other : Meta} {data : Nat}

theorem Built.nil : Built [] [] where
  files _ h := absurd h not_mem_nil
  folders _ h := absurd h not_mem_nil
  only qs i h := by
    rw [node_nil] at h
    cases h
  within i h := by
    cases h with
    | top h => cases h
    | inside h _ => cases h

/-- The tree of files and symbolic links is well typed. -/
theorem Built.typed (hb : Built children es) (hdir : ∀ e ∈ es, ¬ e.IsDir) : Typed children := by
  intro i hi hmode
  rcases hb.within i hi with hf | ⟨e, he, p, rfl⟩
  · exact hf
  · exact absurd hmode (hdir e he)

/-- No entry is in the way of the next, if those before it are files and links. -/
theorem Built.way (hb : Built children pre) (hdir : ∀ e ∈ pre, ¬ e.IsDir)
    (hbelow : ∀ e' ∈ pre, e'.path ++ [slash] <+: e.path → e'.IsDir) :
    Way children (comps e.path) := by
  intro qs i hpre hne hi
  obtain ⟨e', he', hqs⟩ := hb.only qs i hi
  by_cases heq : qs = comps e'.path
  · subst heq
    exact absurd (hbelow e' he' ((comps_prefix_iff _ _).mp ⟨hpre, hne⟩)) (hdir e' he')
  · have hnil : qs ≠ [] := by
      rintro rfl
      cases hi
    obtain ⟨j, hj, hfolder⟩ := hb.folders e' he' qs hqs heq hnil
    rw [hi] at hj
    cases hj
    exact hfolder

/-- A path is free, if it is none of the paths before it and nothing is below it. -/
theorem Built.free (hb : Built children pre) (hdistinct : ∀ e' ∈ pre, e'.path ≠ e.path)
    (hbelow : ∀ e' ∈ pre, ¬ e.path ++ [slash] <+: e'.path) :
    node children (comps e.path) = none := by
  by_contra hne
  obtain ⟨i, hi⟩ := Option.ne_none_iff_exists'.mp hne
  obtain ⟨e', he', hpre⟩ := hb.only _ i hi
  refine hbelow e' he' ((comps_prefix_iff _ _).mp ⟨hpre, fun heq => ?_⟩)
  exact hdistinct e' he' (comps_injective heq).symm

theorem Entry.file_name (e : Entry) (p : Str) : (e.file p).name = p ∧ ¬ (e.file p).IsFolder :=
  ⟨rfl, id⟩

/-- One more entry. -/
theorem Built.makeFile (hb : Built children pre) (hpath : [] ∉ comps e.path)
    (hway : Way children (comps e.path)) (hfree : node children (comps e.path) = none) :
    ∃ ch, makeFile e.file children [] e.path = some (ch, true) ∧ Built ch (pre ++ [e]) := by
  obtain ⟨ch, hmake, ⟨p, hnew⟩, hfolders, hold⟩ := makeParts_node e.file_name
    (comps_ne_nil e.path) hpath hway hfree
  refine ⟨ch, (makeFile_eq _ _ _ _).trans hmake, fun e' he' => ?_, fun e' he' qs hpre hne hnil => ?_,
    fun qs i hi => ?_, fun i hi => ?_⟩
  · rcases mem_append.mp he' with he' | he'
    · obtain ⟨p', hp'⟩ := hb.files e' he'
      refine ⟨p', ?_⟩
      rw [hold, hp']
      -- a file is neither at the path of the new one nor above it
      intro hpre
      by_cases heq : comps e'.path = comps e.path
      · rw [heq, hfree] at hp'
        cases hp'
      · exact (e'.file_name p').2 (hway _ _ hpre heq hp')
    · rw [mem_singleton.mp he']
      exact ⟨p, hnew⟩
  · rcases mem_append.mp he' with he' | he'
    · by_cases habove : qs <+: comps e.path
      · refine hfolders qs habove (fun heq => ?_) hnil
        obtain ⟨i, hi, -⟩ := hb.folders e' he' qs hpre hne hnil
        rw [heq, hfree] at hi
        cases hi
      · rw [hold qs habove]
        exact hb.folders e' he' qs hpre hne hnil
    · rw [mem_singleton.mp he'] at hpre hne
      exact hfolders qs hpre hne hnil
  · by_cases habove : qs <+: comps e.path
    · exact ⟨e, mem_append_right _ (List.mem_singleton_self e), habove⟩
    · rw [hold qs habove] at hi
      obtain ⟨e', he', hpre⟩ := hb.only qs i hi
      exact ⟨e', mem_append_left _ he', hpre⟩
  · rcases makeParts_within (fun p => (e.file_name p).2) hmake hi with hi | hi | ⟨p', rfl⟩
    · exact .inl hi
    · exact (hb.within i hi).imp id fun ⟨e', he', hp⟩ => ⟨e', mem_append_left _ he', hp⟩
    · exact .inr ⟨e, mem_append_right _ (List.mem_singleton_self e), p', rfl⟩

/-! ## Entry by entry -/

/-- The reader is between two entries. -/
structure At (m : Mem) (other : Meta) (r : Reader) (pre post : List Entry) : Prop where
  built : Built r.children pre
  stored : Stored m r.ptr (encode post other)
  done : r.done = false

theorem readEntry_next (hat : At m other r pre (e :: post)) (hwf : WellFormed (pre ++ e :: post))
    (hdir : ∀ e' ∈ pre, ¬ e'.IsDir) :
    (∃ ch p ptr, readEntry m r = some ⟨ch, ptr, false⟩ ∧ Within (e.file p) ch) ∧
      (¬ e.IsDir → ∃ r', readEntry m r = some r' ∧ At m other r' (pre ++ [e]) post) := by
  have he : e ∈ pre ++ e :: post := mem_append_right _ mem_cons_self
  have hold : ∀ {e'}, e' ∈ pre → e' ∈ pre ++ e :: post := fun h => mem_append_left _ h
  obtain ⟨⟨hpath, hnul⟩, hname⟩ := hwf.path e he
  obtain ⟨hstored, hrest⟩ := stored_append.mp hat.stored
  have hread := readEntry_entry hat.done (hwf.fits e he) hnul hname hstored
  have hway : Way r.children (comps e.path) := hat.built.way hdir
    fun e' he' => hwf.below e' (hold he') e he
  refine ⟨?_, fun hnot => ?_⟩
  · obtain ⟨ch, p, hmake, hp⟩ := makeParts_makes e.file (comps_ne_nil e.path) hpath hway
    refine ⟨ch, p, r.ptr + (encodeEntry e).length, ?_, hp⟩
    rw [hread, makeFile_eq]
    show (makeParts e.file r.children (comps e.path)).bind _ = _
    rw [hmake]
    rfl
  · have hdistinct : ∀ e' ∈ pre, e'.path ≠ e.path := fun e' he' =>
      (List.pairwise_append.mp hwf.distinct).2.2 e' he' e mem_cons_self
    have hfree := hat.built.free hdistinct fun e' he' hpre =>
      hnot (hwf.below e he e' (hold he') hpre)
    obtain ⟨ch, hmake, hbuilt⟩ := hat.built.makeFile hpath hway hfree
    refine ⟨⟨ch, r.ptr + (encodeEntry e).length, false⟩, ?_, hbuilt, hrest, rfl⟩
    rw [hread, hmake]
    rfl

theorem readEntry_end (hat : At m other r pre []) :
    readEntry m r = some { r with done := true } :=
  readEntry_trailer hat.done hat.stored

theorem At.start (h : Stored m data (encode es other)) : At m other (Reader.start data) [] es :=
  ⟨Built.nil, h, rfl⟩

/-- Reading what is left of an archive. -/
theorem readLoop_total (hat : At m other r pre post) (hwf : WellFormed (pre ++ post))
    (hdir : ∀ e ∈ pre ++ post, ¬ e.IsDir) :
    ∃ ch, (∀ fuel, readLoop m (post.length + 1 + fuel) r = some ch) ∧ Built ch (pre ++ post) := by
  induction post generalizing pre r with
  | nil =>
    refine ⟨r.children, fun fuel => ?_, by rw [append_nil]; exact hat.built⟩
    rw [Nat.add_right_comm, readLoop, readEntry_end hat]
    rfl
  | cons e post ih =>
    have he : e ∈ pre ++ e :: post := mem_append_right _ mem_cons_self
    obtain ⟨r', hread, hat'⟩ := (readEntry_next hat hwf fun e' he' =>
      hdir e' (mem_append_left _ he')).2 (hdir e he)
    have happ : pre ++ [e] ++ post = pre ++ e :: post := by simp
    obtain ⟨ch, hch, hbuilt⟩ := ih hat' (by rwa [happ]) (by rwa [happ])
    refine ⟨ch, fun fuel => ?_, by rwa [happ] at hbuilt⟩
    rw [Nat.add_right_comm, readLoop, hread]
    show (if r'.done = true then _ else _) = _
    rw [hat'.done]
    exact hch fuel

/-! ## Looking up the entries -/

theorem walk_cpio {top : List CpioInode} {n : Str} {l : Option CpioInode} {ps : List Str}
    (hps : ps ≠ []) (hnul : ∀ p ∈ ps, 0 ∉ p) :
    (∀ i, node children ps = some i →
        ∃ l', walk (cpioFs top) (.folder n children) l ps = .ok (i, l')) ∧
      (node children ps = none →
        walk (cpioFs top) (.folder n children) l ps = .error .NotFound) := by
  induction ps generalizing children n l with
  | nil => exact absurd rfl hps
  | cons p ps ih =>
    have hp : cstr p = p := cstr_eq_self (hnul p mem_cons_self)
    rw [walk, hp]
    cases hc : child children p with
    | none =>
      have hlookup : (cpioFs top).lookup (.folder n children) p = .error .NotFound := by
        show CpioInode.lookup (.folder n children) p = _
        rw [CpioInode.lookup, hc]
      rw [hlookup]
      refine ⟨fun i hi => ?_, fun _ => rfl⟩
      by_cases hnil : ps = []
      · subst hnil
        rw [node, hc] at hi
        cases hi
      · rw [node_cons hnil, hc] at hi
        cases hi
    | some c =>
      have hlookup : (cpioFs top).lookup (.folder n children) p = .ok c := by
        show CpioInode.lookup (.folder n children) p = _
        rw [CpioInode.lookup, hc]
      rw [hlookup]
      by_cases hnil : ps = []
      · subst hnil
        rw [node, hc]
        exact ⟨fun i hi => by cases hi; exact ⟨_, rfl⟩, fun h => by cases h⟩
      · rw [node_cons hnil, hc]
        cases c with
        | folder n' sub => exact ih hnil fun q hq => hnul q (mem_cons_of_mem _ hq)
        | file n' mode size data =>
          refine ⟨fun i hi => (by cases hi), fun _ => ?_⟩
          cases ps with
          | nil => exact absurd rfl hnil
          | cons q ps => rfl

theorem SingleSlashes.relative {q : Str} (h : SingleSlashes q) : q ≠ [] ∧ q.head? ≠ some slash := by
  constructor
  · rintro rfl
    exact h.1 mem_cons_self
  · intro hs
    cases q with
    | nil => cases hs
    | cons c q =>
      cases hs
      refine h.1 ?_
      exact mem_cons_self

/-- What is found is what is in the tree. -/
theorem findsPath_iff {q : Str} {i : CpioInode} (hq : SingleSlashes q) :
    FindsPath (cpioFs children) .NoFollowSymlink (slash :: q) i ↔ node children (comps q) = some i := by
  obtain ⟨hne, hrel⟩ := hq.relative
  have hcstr : (cstr (slash :: q)).drop 1 = q := by
    rw [cstr_eq_self]
    · rfl
    · exact fun h => (mem_cons.mp h).elim (by decide) hq.2
  have hpath : ∀ fuel, lookupPath (cpioFs children) .NoFollowSymlink fuel (slash :: q)
      = lookup (cpioFs children) .NoFollowSymlink fuel (.folder [] children) q
          MAX_SYMLINK_INDIRECTIONS := by
    intro fuel
    rw [lookupPath, if_neg (by simp), hcstr]
    rfl
  have hnul : ∀ p ∈ comps q, 0 ∉ p := fun p hp h0 =>
    hq.2 ((mem_splitLoop hp h0).resolve_left not_mem_nil).1
  obtain ⟨hfound, hnone⟩ := @walk_cpio children children [] none (comps q) (comps_ne_nil q) hnul
  have hround : round (cpioFs children) .NoFollowSymlink (.folder [] children) q
      = .done ((node children (comps q)).elim (.error .NotFound) .ok) := by
    rw [round, if_neg hne, if_neg hrel, parts_eq_comps hq.1]
    cases hnode : node children (comps q) with
    | none =>
      rw [hnone hnode]
      rfl
    | some i =>
      obtain ⟨l, hl⟩ := hfound i hnode
      rw [hl]
      exact if_pos (.inr rfl)
  have hlookup : ∀ fuel, lookup (cpioFs children) .NoFollowSymlink (fuel + 1) (.folder [] children) q
      MAX_SYMLINK_INDIRECTIONS = some ((node children (comps q)).elim (.error .NotFound) .ok) := by
    intro fuel
    rw [lookup, hround]
  constructor
  · rintro ⟨fuel, hf⟩
    rw [hpath] at hf
    cases fuel with
    | zero => cases hf
    | succ fuel =>
      rw [hlookup] at hf
      cases hnode : node children (comps q) with
      | none =>
        rw [hnode] at hf
        cases hf
      | some j =>
        rw [hnode] at hf
        cases hf
        rfl
  · intro h
    refine ⟨1, ?_⟩
    rw [hpath, hlookup, h]
    rfl

theorem findsPath_root : FindsPath (cpioFs children) .NoFollowSymlink [slash] (.folder [] children) :=
  ⟨1, rfl⟩

end

/-- **Reading undoes encoding.** An archive of files and symbolic links is read to its end, and then
just their paths and the directories above them are found, each file with its mode, size and
data. -/
theorem readArchive_encode {m : Mem} {data : Nat} {es : List Entry} {other : Meta}
    (hwf : WellFormed es) (hdir : ∀ e ∈ es, ¬ e.IsDir) (hstored : Stored m data (encode es other)) :
    ∃ ch, (∀ fuel, readArchive m data (es.length + 1 + fuel) = some ch) ∧
      (∀ q, q = [] ∨ SingleSlashes q →
        ((∃ i, FindsPath (cpioFs ch) .NoFollowSymlink (slash :: q) i) ↔
          q = [] ∨ ∃ e ∈ es, q = e.path ∨ q ++ [slash] <+: e.path)) ∧
      ∀ e ∈ es, ∃ i h, FindsPath (cpioFs ch) .NoFollowSymlink (slash :: e.path) i ∧
        i.i_mode = e.mode ∧ i.i_size = e.data.length ∧ i.openHandle = .ok h ∧
        ∀ around size, (h.read around size).1 = e.data.take size := by
  obtain ⟨ch, hread, hbuilt⟩ := readLoop_total (At.start hstored) hwf hdir
  refine ⟨ch, hread, fun q hq => ?_, fun e he => ?_⟩
  · rcases hq with rfl | hq
    · exact iff_of_true ⟨_, findsPath_root⟩ (.inl rfl)
    · simp only [findsPath_iff hq, hq.relative.1, false_or]
      constructor
      · rintro ⟨i, hi⟩
        obtain ⟨e, he, hpre⟩ := hbuilt.only _ i hi
        refine ⟨e, he, ?_⟩
        by_cases heq : comps q = comps e.path
        · exact .inl (comps_injective heq)
        · exact .inr ((comps_prefix_iff _ _).mp ⟨hpre, heq⟩)
      · rintro ⟨e, he, rfl | hpre⟩
        · obtain ⟨p, hp⟩ := hbuilt.files e he
          exact ⟨_, hp⟩
        · obtain ⟨hpre, hne⟩ := (comps_prefix_iff _ _).mpr hpre
          obtain ⟨i, hi, -⟩ := hbuilt.folders e he _ hpre hne (comps_ne_nil q)
          exact ⟨i, hi⟩
  · obtain ⟨p, hp⟩ := hbuilt.files e he
    refine ⟨e.file p, ⟨e.data, 0⟩, (findsPath_iff (hwf.path e he).1).mpr hp, rfl, rfl, rfl,
      fun around size => ?_⟩
    have hlen : e.data.length < 2 ^ 64 := (hwf.fits e he).data.trans (by decide)
    exact (CpioFileHandle.reads_of_inside (h := ⟨e.data, 0⟩) hlen (Nat.zero_le _)).bytes around

/-! ## Two archives -/

def noMeta : Meta := ⟨0, 0, 0, 0, 1, 0, 0, 0⟩

/-- An archive in memory, at the address 0. -/
def loaded (es : List Entry) : Mem := fun i => (encode es noMeta).getD i 0

/-- The file `d/f` with three bytes. -/
def oneFile : List Entry := [⟨[100, slash, 102], 0o100644, [1, 2, 3], noMeta⟩]

theorem wellFormed_oneFile : WellFormed oneFile := by
  refine ⟨?_, ?_, ?_, List.pairwise_singleton _ _, ?_⟩ <;>
    simp only [oneFile, List.forall_mem_singleton]
  · exact ⟨by decide, by decide⟩
  · exact ⟨⟨by decide, by decide⟩, by decide⟩
  · decide
  · decide

theorem readArchive_encode_oneFile : ∃ ch i, readArchive (loaded oneFile) 0 2 = some ch ∧
    FindsPath (cpioFs ch) .NoFollowSymlink [slash, 100, slash, 102] i ∧ i.i_size = 3 := by
  have hdir : ∀ e ∈ oneFile, ¬ e.IsDir := by
    decide
  obtain ⟨ch, hread, -, hfiles⟩ := @readArchive_encode (loaded oneFile) 0 oneFile noMeta wellFormed_oneFile hdir
    (by decide)
  obtain ⟨i, h, hfound, -, hsize, -⟩ := hfiles _ mem_cons_self
  exact ⟨ch, i, hread 0, hfound, hsize⟩

/-! ## Entries of directories -/

/-- The round of the loop as a step. -/
def readStep (m : Mem) (r : Reader) (_ : Unit) : Option Reader := readEntry m r

/-- In every state of `readArchive` the tree is well typed, and `makeFile` takes no file for a
folder; and in the end what is below a directory entry is found. -/
def WellTyped (m : Mem) (data : Nat) (es : List Entry) : Prop :=
  (∀ r, Reach (readStep m) (fun _ _ => True) (Reader.start data) r →
      Typed r.children ∧ (r.done = false → ∃ r', readEntry m r = some r')) ∧
    ∀ fuel ch, readArchive m data fuel = some ch → ∀ d ∈ es, d.IsDir → ∀ e ∈ es,
      d.path ++ [slash] <+: e.path →
        ∃ i, FindsPath (cpioFs ch) .NoFollowSymlink (slash :: e.path) i

section

variable {es pre post : List Entry} {m : Mem} {other : Meta} {data : Nat}

/-- Up to the first directory the archive is read entry by entry. -/
theorem reach_at (hstored : Stored m data (encode (pre ++ post) other))
    (hwf : WellFormed (pre ++ post)) (hdir : ∀ e ∈ pre, ¬ e.IsDir) :
    ∃ r, Reach (readStep m) (fun _ _ => True) (Reader.start data) r ∧ At m other r pre post := by
  induction pre using List.reverseRecOn generalizing post with
  | nil => exact ⟨_, .start, At.start hstored⟩
  | append_singleton pre e ih =>
    rw [append_assoc] at hstored hwf
    have hdir' : ∀ e' ∈ pre, ¬ e'.IsDir := fun e' he' => hdir e' (mem_append_left _ he')
    obtain ⟨r, hreach, hat⟩ := ih hstored hwf hdir'
    obtain ⟨r', hread, hat'⟩ := (readEntry_next hat hwf hdir').2
      (hdir e (mem_append_right _ (List.mem_singleton_self e)))
    exact ⟨r', .tail (a := ()) hreach trivial hread, hat'⟩

/-- Without directories, every state is one between two entries, or the end. -/
theorem reach_cases (hstored : Stored m data (encode es other)) (hwf : WellFormed es)
    (hdir : ∀ e ∈ es, ¬ e.IsDir) {r : Reader}
    (hr : Reach (readStep m) (fun _ _ => True) (Reader.start data) r) :
    (∃ pre post, es = pre ++ post ∧ At m other r pre post) ∨ r.done = true ∧ Built r.children es := by
  refine hr.invariant (I := fun r => (∃ pre post, es = pre ++ post ∧ At m other r pre post) ∨
    r.done = true ∧ Built r.children es) (.inl ⟨[], es, rfl, At.start hstored⟩) ?_
  rintro r u r' hinv - hstep
  replace hstep : readEntry m r = some r' := hstep
  rcases hinv with ⟨pre, post, rfl, hat⟩ | ⟨hdone, -⟩
  · cases post with
    | nil =>
      rw [readEntry_end hat] at hstep
      cases hstep
      exact .inr ⟨rfl, by rw [append_nil]; exact hat.built⟩
    | cons e post =>
      obtain ⟨r'', hread, hat'⟩ := (readEntry_next hat hwf fun e' he' =>
        hdir e' (mem_append_left _ he')).2
          (hdir e (mem_append_right _ mem_cons_self))
      rw [hread] at hstep
      cases hstep
      exact .inl ⟨pre ++ [e], post, by simp, hat'⟩
  · obtain ⟨hnot, -⟩ := of_assert hstep
    rw [hdone] at hnot
    cases hnot

/-- A directory, when it has been read, is a file with the mode of a directory. -/
theorem not_wellTyped (hwf : WellFormed es) (hstored : Stored m data (encode es other))
    (hex : ∃ e ∈ es, e.IsDir) : ¬ WellTyped m data es := by
  obtain ⟨d, hfirst⟩ : ∃ d, es.find? (fun e => decide e.IsDir) = some d :=
    isSome_iff_exists.mp (List.find?_isSome.mpr (by simpa using hex))
  obtain ⟨hd, pre, post, rfl, hpre⟩ := List.find?_eq_some_iff_append.mp hfirst
  have hpre' : ∀ e ∈ pre, ¬ e.IsDir := fun e he => by simpa using hpre e he
  obtain ⟨r, hreach, hat⟩ := reach_at hstored hwf hpre'
  obtain ⟨ch, p, ptr, hread, hwithin⟩ := (readEntry_next hat hwf hpre').1
  have hreach' : Reach (readStep m) (fun _ _ => True) (Reader.start data) ⟨ch, ptr, false⟩ :=
    .tail (a := ()) hreach trivial hread
  exact fun htyped => (htyped.1 _ hreach').1 _ hwithin (of_decide_eq_true hd)

/-- **The tree of an archive is well typed just when the archive has no directory entry.** -/
theorem archive_wellTyped_iff (hwf : WellFormed es) (hstored : Stored m data (encode es other)) :
    WellTyped m data es ↔ ∀ e ∈ es, ¬ e.IsDir := by
  constructor
  · exact fun htyped e he hd => not_wellTyped hwf hstored ⟨e, he, hd⟩ htyped
  · intro hdir
    refine ⟨fun r hr => ?_, fun fuel ch _ d hd hisdir => absurd hisdir (hdir d hd)⟩
    rcases reach_cases hstored hwf hdir hr with ⟨pre, post, rfl, hat⟩ | ⟨hdone, hbuilt⟩
    · refine ⟨hat.built.typed fun e he => hdir e (mem_append_left _ he), fun _ => ?_⟩
      cases post with
      | nil => exact ⟨_, readEntry_end hat⟩
      | cons e post =>
        obtain ⟨r', hread, -⟩ := (readEntry_next hat hwf fun e' he' =>
          hdir e' (mem_append_left _ he')).2
            (hdir e (mem_append_right _ mem_cons_self))
        exact ⟨r', hread⟩
    · exact ⟨hbuilt.typed hdir, fun h => absurd (hdone.symm.trans h) (by decide)⟩

end

theorem archive_wellTyped_iff_oneFile : WellTyped (loaded oneFile) 0 oneFile :=
  (@archive_wellTyped_iff oneFile (loaded oneFile) noMeta 0 wellFormed_oneFile (by decide)).mpr
    (by simp only [oneFile, List.forall_mem_singleton]; decide)

/-- A directory `d`. -/
def dirEntry : Entry := ⟨[100], 0o040755, [], noMeta⟩

/-- A file `d/f`. -/
def belowEntry : Entry := ⟨[100, slash, 102], 0o100644, [1, 2, 3], noMeta⟩

theorem wellFormed_dirEntry : WellFormed [dirEntry, belowEntry] := by
  refine ⟨?_, ?_, ?_, ?_, ?_⟩ <;>
    simp only [List.forall_mem_cons, not_mem_nil, false_implies, forall_true_iff, and_true,
      List.pairwise_cons]
  · exact ⟨⟨by decide, by decide⟩, by decide, by decide⟩
  · exact ⟨⟨⟨by decide, by decide⟩, by decide⟩, ⟨by decide, by decide⟩, by decide⟩
  all_goals decide

/-- The directory is a file with the mode of a directory, and `makeFile` casts it to a folder when
it gets to the file below. -/
theorem directory_entry_is_a_file : ¬ WellTyped (loaded [dirEntry, belowEntry]) 0 [dirEntry, belowEntry] ∧
    ∃ r, readEntry (loaded [dirEntry, belowEntry]) (Reader.start 0) = some r ∧
      readEntry (loaded [dirEntry, belowEntry]) r = none := by
  have hwf := wellFormed_dirEntry
  have hstored : Stored (loaded [dirEntry, belowEntry]) 0 (encode [dirEntry, belowEntry] noMeta) := by
    decide
  refine ⟨not_wellTyped hwf hstored ⟨_, mem_cons_self, by decide⟩, ?_⟩
  obtain ⟨hfirst, hrest⟩ := stored_append.mp hstored
  obtain ⟨hsecond, -⟩ := stored_append.mp hrest
  have hread : ∀ {e r}, e ∈ [dirEntry, belowEntry] → r.done = false →
      Stored (loaded [dirEntry, belowEntry]) r.ptr (encodeEntry e) →
      readEntry (loaded [dirEntry, belowEntry]) r = (makeFile e.file r.children [] e.path).bind
        fun f => some ⟨f.1, r.ptr + (encodeEntry e).length, false⟩ :=
    fun he hdone h => readEntry_entry hdone (hwf.fits _ he) (hwf.path _ he).1.2 (hwf.path _ he).2 h
  refine ⟨⟨[dirEntry.file [100]], 0 + (encodeEntry dirEntry).length, false⟩, ?_, ?_⟩
  · rw [hread mem_cons_self rfl hfirst]
    rfl
  · rw [hread (mem_cons_of_mem _ mem_cons_self) rfl hsecond]
    rfl

end Flix.Fs

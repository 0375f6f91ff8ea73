import Flix.Fs.Links

/-!
# Slashes

A path is looked up by its parts. Slashes that are repeated, or at the end, are not seen; a
slash at the front says that the walk starts at the root, and nothing else.
-/

namespace Flix.Fs

section

variable {ι : Type} {fs : FileSystem ι} {options : LookupOptions} {p q : Str}

/-- A path is its parts, and whether it starts with a slash. -/
theorem round_congr (h : parts p = parts q) (hhead : p.head? = some slash ↔ q.head? = some slash)
    (i : ι) : round fs options i p = round fs options i q := by
  have hempty : ∀ {p q : Str}, parts p = parts q → (p.head? = some slash ↔ q.head? = some slash) →
      p = [] → q = [] := by
    intro p q h hhead hp
    subst hp
    by_contra hq
    exact absurd (hhead.mpr (head_of_parts_eq_nil hq h.symm)) (by simp)
  have hnil : p = [] ↔ q = [] := ⟨hempty h hhead, hempty h.symm hhead.symm⟩
  simp only [round, h, hnil, hhead]

/-- A slash at the front puts the walk at the root. -/
theorem round_slash (i : ι) (a : Str) :
    round fs options i (slash :: a) = round fs options fs.root a := by
  have hparts : parts (slash :: a) = parts a := parts_append [] a
  rw [round, if_neg (by simp), List.head?_cons, if_pos rfl, hparts, round, ite_self]
  by_cases ha : a = []
  · subst ha
    exact if_pos (.inl fs.root_mode)
  · rw [if_neg ha]

theorem lookup_congr {i j : ι} (h : round fs options i p = round fs options j q) (fuel : Nat)
    (left : UInt8) : lookup fs options fuel i p left = lookup fs options fuel j q left := by
  cases fuel with
  | zero => rfl
  | succ fuel => rw [lookup, lookup, h]

/-- Slashes are seen at the front only, where one is as good as many. -/
structure SlashBlind (fs : FileSystem ι) (options : LookupOptions) : Prop where
  repeated : ∀ fuel i a b left, lookup fs options fuel i (a ++ slash :: slash :: b) left
    = lookup fs options fuel i (a ++ slash :: b) left
  trailing : ∀ fuel i a left, a ≠ [] →
    lookup fs options fuel i (a ++ [slash]) left = lookup fs options fuel i a left
  leading : ∀ fuel i a left,
    lookup fs options fuel i (slash :: a) left = lookup fs options fuel fs.root a left
  absolute : ∀ fuel a, lookupPath fs options fuel (slash :: slash :: a)
    = lookupPath fs options fuel (slash :: a)

theorem slashBlind (fs : FileSystem ι) (options : LookupOptions) : SlashBlind fs options := by
  have hparts : ∀ b, parts (slash :: b) = parts b := parts_append []
  have hleading : ∀ fuel i a left,
      lookup fs options fuel i (slash :: a) left = lookup fs options fuel fs.root a left :=
    fun fuel i a left => lookup_congr (round_slash i a) fuel left
  refine ⟨fun fuel i a b left => ?_, fun fuel i a left ha => ?_, hleading, fun fuel a => ?_⟩
  · refine lookup_congr (round_congr ?_ ?_ i) fuel left
    · rw [parts_append, parts_append, hparts]
    · cases a <;> rfl
  · refine lookup_congr (round_congr ?_ ?_ i) fuel left
    · rw [parts_append]
      exact append_nil _
    · rw [List.head?_append_of_ne_nil _ ha]
  · exact hleading fuel fs.root (cstr a) MAX_SYMLINK_INDIRECTIONS

end

/-- **`split`**, and what it means for the walk: with `merge` it finds the segments, without it is
the one list of strings that joins to `s`, and `lookup` does not see how the parts are separated. -/
theorem split_spec (s : Str) (c : UInt8) :
    Segments s c (split s c true) ∧
    (split s c false ≠ [] ∧ (∀ p ∈ split s c false, c ∉ p) ∧
      [c].intercalate (split s c false) = s ∧
      ∀ ps, ps ≠ [] → (∀ p ∈ ps, c ∉ p) → [c].intercalate ps = s → ps = split s c false) ∧
    split s c true = (split s c false).filter (· ≠ []) ∧
    ∀ (ι : Type) (fs : FileSystem ι) (options : LookupOptions), SlashBlind fs options := by
  refine ⟨split_segments s c, ⟨split_ne_nil s c, fun p hp => split_free hp, intercalate_split s c,
    ?_⟩, split_merge s c, fun ι fs options => slashBlind fs options⟩
  intro ps hne hfree hjoin
  rw [← hjoin, split_intercalate hne hfree]

/-- The empty list is joined to the empty string too, and from `d` the paths `/f` and `f` do not
lead to the same file. -/
theorem empty_join_and_leading_slash :
    ¬ (∀ ps : List Str, (∀ p ∈ ps, slash ∉ p) → [slash].intercalate ps = [] →
      ps = split [] slash false) ∧
    lookup smallFs .None 1 .d [slash, 102] MAX_SYMLINK_INDIRECTIONS = some (.error .NotFound) ∧
    lookup smallFs .None 1 .d [102] MAX_SYMLINK_INDIRECTIONS = some (.ok .f) := by
  refine ⟨fun h => ?_, rfl, rfl⟩
  exact absurd (h [] (fun _ hp => absurd hp not_mem_nil) rfl) (by decide)

end Flix.Fs

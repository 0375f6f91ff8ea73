import Flix.Fs.Lookup

/-!
# Symbolic links

`lookup` hands `indirectionLeft` down from call to call, one less each time, and nobody
looks at it: the number of links that are followed is the number of links there are. It
returns after at most `MAX_SYMLINK_INDIRECTIONS` of them just when the chain of links is
not longer, and in a cycle of links it does not return.

Links are followed at the end of a path only. A path through a symbolic link to a
directory is not found, although the link alone is.
-/

namespace Flix.Fs

section

variable {ι : Type} {fs : FileSystem ι} {options : LookupOptions} {i j d e : ι} {a b path : Str}
  {n fuel : Nat} {left left' : UInt8}

/-! ## Chains of links -/

/-- The link at the end of a path: where its target starts from, and the target. -/
def link (fs : FileSystem ι) (options : LookupOptions) (p : ι × Str) : Option (ι × Str) :=
  match round fs options p.1 p.2 with
  | .follow (some lastLevel) target => some (lastLevel, target)
  | _ => none

/-- Behind `n` links. -/
def links (fs : FileSystem ι) (options : LookupOptions) : Nat → ι × Str → Option (ι × Str)
  | 0, p => some p
  | n + 1, p => (link fs options p).bind (links fs options n)

/-- A call returns, or it follows the link at the end of its path. -/
theorem round_cases (fs : FileSystem ι) (options : LookupOptions) (i : ι) (path : Str) :
    (∃ r, round fs options i path = .done r ∧ link fs options (i, path) = none ∧
        ∀ fuel left, lookup fs options (fuel + 1) i path left = some r) ∨
      ∃ j target, round fs options i path = .follow (some j) target ∧
        link fs options (i, path) = some (j, target) ∧
        ∀ fuel left, lookup fs options (fuel + 1) i path left
          = lookup fs options fuel j target (left - 1) := by
  cases hr : round fs options i path with
  | done r =>
    refine .inl ⟨r, rfl, ?_, fun fuel left => ?_⟩
    · rw [link, hr]
    · rw [lookup, hr]
  | follow l target =>
    obtain ⟨j, rfl⟩ := Option.ne_none_iff_exists'.mp (round_follow hr)
    refine .inr ⟨j, target, rfl, ?_, fun fuel left => ?_⟩
    · rw [link, hr]
    · rw [lookup, hr]

/-- One call for each link, and one to return. -/
theorem lookup_isSome_iff {fs : FileSystem ι} {options : LookupOptions} (n : Nat) (i : ι)
    (path : Str) (left : UInt8) :
    (lookup fs options n i path left).isSome ↔ links fs options n (i, path) = none := by
  induction n generalizing i path left with
  | zero => simp [lookup, links]
  | succ n ih =>
    rcases round_cases fs options i path with ⟨r, -, hlink, hl⟩ | ⟨j, target, -, hlink, hl⟩
    · simp [hl, links, hlink]
    · rw [hl, links, hlink]
      exact ih j target (left - 1)

/-- A call returns after at most `MAX_SYMLINK_INDIRECTIONS` links, and with an error if there are
more. -/
def Bounded (fs : FileSystem ι) (options : LookupOptions) (i : ι) (path : Str) : Prop :=
  ∃ r, lookup fs options (MAX_SYMLINK_INDIRECTIONS.toNat + 1) i path MAX_SYMLINK_INDIRECTIONS
      = some r ∧
    (links fs options (MAX_SYMLINK_INDIRECTIONS.toNat + 1) (i, path) ≠ none → ∃ e, r = .error e)

/-- **The bound on links holds just when there are no more links.** -/
theorem lookup_bounded_iff (fs : FileSystem ι) (options : LookupOptions) (i : ι) (path : Str) :
    Bounded fs options i path ↔
      links fs options (MAX_SYMLINK_INDIRECTIONS.toNat + 1) (i, path) = none := by
  rw [← lookup_isSome_iff _ i path MAX_SYMLINK_INDIRECTIONS]
  refine ⟨fun ⟨r, hr, _⟩ => by rw [hr]; rfl, fun h => ?_⟩
  obtain ⟨r, hr⟩ := isSome_iff_exists.mp h
  exact ⟨r, hr, fun hlinks => absurd ((lookup_isSome_iff _ i path _).mp h) hlinks⟩

/-- A directory with the symbolic link `a` to `a`. -/
def selfLink : FileSystem Bool where
  root := false
  i_mode i := if i then S_IFLNK else S_IFDIR
  i_size i := if i then 1 else 0
  lookup i name := if i = false ∧ name = [97] then .ok true else .error .NotFound
  contents i := if i then .ok [97] else .error .NotAFile
  root_mode := by decide
  link_lookup i hi name := by
    cases i with
    | true => exact ⟨.NotFound, rfl⟩
    | false => exact absurd hi (by decide)

theorem links_selfLink : ∀ n, links selfLink .None n (false, [97]) = some (false, [97])
  | 0 => rfl
  | n + 1 => by
    have hlink : link selfLink .None (false, [97]) = some (false, [97]) := rfl
    rw [links]
    exact links_selfLink n

/-- A link to itself is followed for ever. -/
theorem selfLink_not_bounded : ¬ Bounded selfLink .None false [97] ∧
    ∀ fuel, lookup selfLink .None fuel false [97] MAX_SYMLINK_INDIRECTIONS = none := by
  refine ⟨fun ⟨r, hr, _⟩ => ?_, fun fuel => ?_⟩
  · have hnone := (lookup_isSome_iff _ _ _ _).mp (isSome_iff_exists.mpr ⟨r, hr⟩)
    rw [links_selfLink] at hnone
    cases hnone
  · refine Option.not_isSome_iff_eq_none.mp fun hsome => ?_
    rw [lookup_isSome_iff, links_selfLink] at hsome
    cases hsome

/-! ## Paths that are put together -/

/-- `lookup` with its default arguments finds `e`. -/
def Finds (fs : FileSystem ι) (i : ι) (path : Str) (e : ι) : Prop :=
  ∃ fuel, lookup fs .None fuel i path MAX_SYMLINK_INDIRECTIONS = some (.ok e)

/-- Where a path ends, without following a link there. -/
def endOf (fs : FileSystem ι) (i : ι) (path : Str) : Except IoError ι :=
  (walk fs i none (parts path)).map Prod.fst

/-- The path leads from `i` to `d`, through the symbolic links at its end. -/
inductive Leads (fs : FileSystem ι) : ι → Str → ι → Prop where
  | here {i d : ι} {path : Str} : round fs .None i path = .done (.ok d) → Leads fs i path d
  | link {i j d : ι} {path target : Str} :
      link fs .None (i, path) = some (j, target) → Leads fs j target d → Leads fs i path d

theorem leads_of_lookup (h : lookup fs .None fuel i path left = some (.ok e)) :
    Leads fs i path e := by
  induction fuel generalizing i path left with
  | zero => cases h
  | succ fuel ih =>
    rcases round_cases fs .None i path with ⟨r, hr, -, hl⟩ | ⟨j, target, -, hlink, hl⟩
    · rw [hl] at h
      cases h
      exact .here hr
    · rw [hl] at h
      exact .link hlink (ih h)

theorem lookup_of_leads (h : Leads fs i path e) (left : UInt8) :
    ∃ fuel, lookup fs .None fuel i path left = some (.ok e) := by
  induction h generalizing left with
  | here hr => exact ⟨1, by rw [lookup, hr]⟩
  | link hlink _ ih =>
    rename_i i j d path target _
    obtain ⟨fuel, hf⟩ := ih (left - 1)
    refine ⟨fuel + 1, ?_⟩
    rcases round_cases fs .None i path with ⟨r, -, hnone, -⟩ | ⟨j', target', -, hlink', hl⟩
    · rw [hnone] at hlink
      cases hlink
    · rw [hlink'] at hlink
      cases hlink
      rw [hl, hf]

theorem finds_iff_leads : Finds fs i path e ↔ Leads fs i path e :=
  ⟨fun ⟨_, h⟩ => leads_of_lookup h, fun h => lookup_of_leads h _⟩

theorem leads_congr (h : round fs .None i a = round fs .None j b) :
    Leads fs i a e ↔ Leads fs j b e := by
  have hstep : ∀ {i j a b}, round fs .None i a = round fs .None j b → Leads fs i a e →
      Leads fs j b e := by
    intro i j a b h hl
    have hlink : link fs .None (i, a) = link fs .None (j, b) := by
      unfold link
      rw [h]
    cases hl with
    | here hr => exact .here (h ▸ hr)
    | link hl hrest => exact .link (hlink ▸ hl) hrest
  exact ⟨hstep h, hstep h.symm⟩

theorem leads_of_done {r : Except IoError ι} (h : round fs .None i path = .done r) :
    Leads fs i path e ↔ r = .ok e := by
  constructor
  · intro hl
    cases hl with
    | here hr =>
      rw [h] at hr
      exact Round.done.inj hr
    | link hl hrest =>
      rw [link, h] at hl
      cases hl
  · rintro rfl
    exact .here h

/-- A relative path behind another one is looked up from where that one ends. -/
theorem round_append (ha : a ≠ []) (hrel : a.head? ≠ some slash) (hb : b ≠ [])
    (hrel' : b.head? ≠ some slash) :
    round fs options i (a ++ slash :: b) = match endOf fs i a with
      | .ok d => round fs options d b
      | .error e => .done (.error e) := by
  have hhead : (a ++ slash :: b).head? ≠ some slash := by
    rwa [List.head?_append_of_ne_nil _ ha]
  rw [round, if_neg (by simp), if_neg hhead, parts_append, walk_append, endOf]
  cases walk fs i none (parts a) with
  | error e => rfl
  | ok r =>
    show _ = round fs options r.1 b
    rw [round, if_neg hb, if_neg hrel']
    have hlast : walk fs r.1 r.2 (parts b) = walk fs r.1 none (parts b) :=
      walk_last (parts_ne_nil hb hrel')
    rw [← hlast]
    rfl

/-- `i` is a symbolic link. -/
def IsLink (fs : FileSystem ι) (i : ι) : Prop := fs.i_mode i &&& S_IFMT = S_IFLNK

theorem round_relative (ha : a ≠ []) (hrel : a.head? ≠ some slash) :
    (∀ e, endOf fs i a = .error e → round fs .None i a = .done (.error e)) ∧
      ∀ d, endOf fs i a = .ok d → ¬ IsLink fs d → round fs .None i a = .done (.ok d) := by
  unfold endOf
  rw [round, if_neg ha, if_neg hrel]
  cases walk fs i none (parts a) with
  | error e =>
    refine ⟨fun e' h => ?_, fun d h => ?_⟩
    · cases h
      rfl
    · cases h
  | ok r =>
    refine ⟨fun e' h => ?_, fun d h hnot => ?_⟩
    · cases h
    · cases h
      exact if_pos (.inl hnot)

theorem not_leads_below_link (hlink : IsLink fs d) (hb : b ≠ []) (hrel : b.head? ≠ some slash) :
    ¬ Leads fs d b e := by
  have hend : endOf fs d b = .error .NotFound := by
    rw [endOf, walk_link hlink (parts_ne_nil hb hrel)]
    rfl
  rw [leads_of_done ((round_relative hb hrel).1 _ hend)]
  exact fun h => by cases h

/-- Looking up `a/b` is looking up `a` and from there `b`. -/
def Compositional (fs : FileSystem ι) (i : ι) (a b : Str) : Prop :=
  ∀ e, Finds fs i (a ++ slash :: b) e ↔ ∃ d, Finds fs i a d ∧ Finds fs d b e

/-- **A path is looked up part by part unless it goes on behind a symbolic link**, that is: `a` ends
at a link, and where that leads to there is `b`. -/
theorem lookup_compositional_iff (fs : FileSystem ι) (i : ι) {a b : Str} (ha : a ≠ [])
    (hrel : a.head? ≠ some slash) (hb : b ≠ []) (hrel' : b.head? ≠ some slash) :
    Compositional fs i a b ↔
      ¬ ((∃ l, endOf fs i a = .ok l ∧ IsLink fs l) ∧ ∃ d e, Leads fs i a d ∧ Leads fs d b e) := by
  unfold Compositional
  simp only [finds_iff_leads]
  have hround := @round_append _ fs .None i a b ha hrel hb hrel'
  cases hend : endOf fs i a with
  | error err =>
    -- `a` is not found, and `a/b` is not
    rw [hend] at hround
    have hnone : ∀ d, ¬ Leads fs i a d := by
      intro d
      rw [leads_of_done ((round_relative ha hrel).1 err hend)]
      exact fun h => by cases h
    refine iff_of_true (fun e => iff_of_false ?_ fun ⟨d, h, _⟩ => hnone d h) ?_
    · rw [leads_of_done hround]
      exact fun h => by cases h
    · rintro ⟨⟨l, h, -⟩, -⟩
      cases h
  | ok d =>
    rw [hend] at hround
    by_cases hlink : IsLink fs d
    · refine ⟨fun h => ?_, fun h e => ?_⟩
      · rintro ⟨-, d', e, hd, he⟩
        exact not_leads_below_link hlink hb hrel' ((leads_congr hround).mp ((h e).mpr ⟨d', hd, he⟩))
      · refine iff_of_false (fun hl => ?_) fun ⟨d', hd, he⟩ => ?_
        · exact not_leads_below_link hlink hb hrel' ((leads_congr hround).mp hl)
        · exact h ⟨⟨d, rfl, hlink⟩, d', e, hd, he⟩
    · have hd : ∀ d', Leads fs i a d' ↔ d' = d := by
        intro d'
        rw [leads_of_done ((round_relative ha hrel).2 d hend hlink), Except.ok.injEq]
        exact eq_comm
      refine iff_of_true (fun e => ?_) ?_
      · rw [leads_congr hround]
        simp only [hd, exists_eq_left]
      · rintro ⟨⟨l, h, hl⟩, -⟩
        cases h
        exact hlink hl

end

/-- The root with a directory `d` in it, a file `f` in that, and a symbolic link `l` to `d`. -/
inductive Small where
  | root
  | d
  | f
  | l
  deriving DecidableEq

def smallFs : FileSystem Small where
  root := .root
  i_mode
    | .root => S_IFDIR
    | .d => S_IFDIR
    | .f => S_IFREG
    | .l => S_IFLNK
  i_size
    | .l => 1
    | _ => 0
  lookup
    | .root, name =>
      if name = [100] then .ok .d else if name = [108] then .ok .l else .error .NotFound
    | .d, name => if name = [102] then .ok .f else .error .NotFound
    | _, _ => .error .NotADirectory
  contents
    | .f => .ok []
    | .l => .ok [100]
    | _ => .error .NotAFile
  root_mode := by decide
  link_lookup i hi name := by
    cases i with
    | l => exact ⟨_, rfl⟩
    | f => exact ⟨_, rfl⟩
    | root => exact absurd hi (by decide)
    | d => exact absurd hi (by decide)

/-- `d/f` is `f` from `d`. -/
theorem lookup_compositional_iff_directory : Compositional smallFs .root [100] [102] :=
  (lookup_compositional_iff smallFs .root (by decide) (by decide) (by decide) (by decide)).mpr
    fun ⟨⟨_, hl, hlink⟩, _⟩ => by
      cases hl
      exact absurd hlink (show S_IFDIR &&& S_IFMT ≠ S_IFLNK by decide)

/-- `l` is `d`, and there is `f`, but `l/f` is not found. -/
theorem link_in_the_middle : Finds smallFs .root [108] .d ∧ Finds smallFs .d [102] .f ∧
    ¬ Finds smallFs .root [108, slash, 102] .f ∧ ¬ Compositional smallFs .root [108] [102] := by
  have hl : Finds smallFs .root [108] .d := ⟨2, rfl⟩
  have hf : Finds smallFs .d [102] .f := ⟨1, rfl⟩
  have hnot : ¬ Finds smallFs .root [108, slash, 102] .f := by
    rw [finds_iff_leads, leads_of_done (show round smallFs .None .root [108, slash, 102]
      = .done (.error .NotFound) from rfl)]
    exact fun h => by cases h
  exact ⟨hl, hf, hnot, fun h => hnot ((h .f).mpr ⟨.d, hl, hf⟩)⟩

end Flix.Fs

import Flix.Paging.PageHeap

/-!
# What is given back, call by call

A frame is given back with `setPageFree` and a block with `kfree`. Whatever is taken down,
each frame and each block that is gone afterwards was given back in exactly one call, and
each that is still there in none. This needs nothing of the state: the assertions in the two
functions see to it.
-/

namespace Flix.Paging

open Function Radix Traced

variable {w w₁ w' : World}

inductive Resource where
  | frame (f : Nat)
  | block (b : Nat)
  deriving DecidableEq

def Call.gives : Call → Option Resource
  | .setPageFree _ f => some (.frame f)
  | .kfree b => some (.block b)

/-- What is marked as used. -/
def World.has (w : World) : Resource → Prop
  | .frame f => Used w.frames f
  | .block b => w.heap.map[b]? = some true

/-- A computation gives back what is gone, once. -/
abbrev GivesBack {α : Type} (w : World) (out : α → World) (x : Traced Call α) : Prop :=
  SpendsTo World.has Call.gives w out x

/-- How often something is given back. -/
def timesGiven (calls : List Call) (i : Resource) : Nat := (calls.filterMap Call.gives).count i

theorem Spends.once {calls : List Call} {i : Resource}
    (h : Spends World.has Call.gives w calls w') (hi : w.has i) (hi' : ¬ w'.has i) :
    timesGiven calls i = 1 := by
  rcases h i with ⟨hcount, -⟩ | ⟨-, hsame⟩
  · exact hcount
  · exact absurd (hsame.mpr hi) hi'

theorem Spends.never {calls : List Call} {i : Resource}
    (h : Spends World.has Call.gives w calls w') (hi : w'.has i ∨ ¬ w.has i) :
    timesGiven calls i = 0 := by
  rcases h i with ⟨-, hhad, hnot⟩ | ⟨hcount, -⟩
  · rcases hi with hi | hi
    · exact absurd hi hnot
    · exact absurd hhad hi
  · exact hcount

/-! ## Frames -/

theorem setPageFree_givesBack (w : World) (f : Nat) : GivesBack w id (w.setPageFree f) := by
  intro w' hw'
  simp only [World.setPageFree, result_bind, result_lift] at hw'
  obtain ⟨-, -, hw'⟩ := of_bind hw'
  obtain ⟨frames, hfree, hw'⟩ := of_bind hw'
  cases hw'
  obtain ⟨hused, hframes⟩ := setPageFree_spec hfree
  have hcalls : (w.setPageFree f : Traced Call World).calls = [.setPageFree w f] := by
    rw [World.setPageFree, hfree]
    rfl
  rw [hcalls]
  have hcount : ∀ i, ([Call.setPageFree w f].filterMap Call.gives).count i
      = if i = .frame f then 1 else 0 := by
    intro i
    show [Resource.frame f].count i = _
    by_cases hi : i = .frame f
    · simp [hi]
    · simp [hi, Ne.symm hi]
  rintro (g | b)
  · rw [hcount]
    by_cases hg : g = f
    · subst hg
      exact .inl ⟨if_pos rfl, hused, fun hc => ((hframes g).mp hc).2 rfl⟩
    · exact .inr ⟨if_neg fun hc => hg (Resource.frame.inj hc), (hframes g).trans (and_iff_left hg)⟩
  · rw [hcount]
    exact .inr ⟨rfl, Iff.rfl⟩

/-- What is marked depends on the frames and on the map of the heap. -/
theorem World.has_congr (hf : w'.frames = w.frames) (hm : w'.heap.map = w.heap.map)
    (i : Resource) : w'.has i ↔ w.has i := by
  cases i with
  | frame f => rw [World.has, World.has, hf]
  | block b => rw [World.has, World.has, hm]

theorem unmapAndFree_givesBack (w : World) (v : VAddr) : GivesBack w id (unmapAndFree w v) := by
  refine SpendsTo.bind (g := Prod.fst) (SpendsTo.lift ?_) ?_
  · rintro ⟨w₁, a⟩ hu
    obtain ⟨hheap, hframes⟩ := unmapPage_keeps hu
    exact World.has_congr hframes (by rw [hheap])
  · rintro ⟨w₁, a⟩ -
    exact setPageFree_givesBack w₁ _

theorem freeBlockPages_givesBack (w : World) (b : Nat) : GivesBack w id (freeBlockPages w b) := by
  unfold freeBlockPages
  split
  · exact SpendsTo.bind (unmapAndFree_givesBack w _) fun _ => unmapAndFree_givesBack _ _
  · exact .pure rfl

/-! ## Blocks -/

theorem kfree_givesBack (w : World) (b : Nat) : GivesBack w id (kfree w b) := by
  intro w' hw'
  obtain ⟨hused, hmap, -⟩ := kfree_heap hw'
  unfold kfree at hw'
  simp only [result_bind] at hw'
  obtain ⟨-, -, hw'⟩ := of_bind hw'
  obtain ⟨-, -, hw'⟩ := of_bind hw'
  obtain ⟨w₁, hpages, hw'⟩ := of_bind hw'
  cases hw'
  have hspent := freeBlockPages_givesBack w b w₁ hpages
  have hheap := freeBlockPages_heap hpages
  have hcalls : (kfree w b : Traced Call World).calls
      = .kfree b :: (freeBlockPages w b : Traced Call World).calls := by
    rw [kfree, assert_pos hused,
      bind_of_some _ hpages]
    exact congrArg _ (append_nil _)
  have hcount : ∀ i, ((kfree w b : Traced Call World).calls.filterMap Call.gives).count i
      = timesGiven (freeBlockPages w b : Traced Call World).calls i + if i = .block b then 1 else 0 := by
    intro i
    rw [hcalls]
    show (Resource.block b :: _).count i = _
    by_cases hi : i = .block b
    · simp [hi, timesGiven]
    · simp [hi, Ne.symm hi, timesGiven]
  -- the pages are frames, and the block goes last
  have hblocks : ∀ c, timesGiven (freeBlockPages w b : Traced Call World).calls (.block c) = 0 := by
    intro c
    refine Spends.never hspent ?_
    by_cases hc : w.heap.map[c]? = some true
    · refine .inl ?_
      show w₁.heap.map[c]? = some true
      rw [hheap]
      exact hc
    · exact .inr hc
  rintro (f | c)
  · rw [hcount]
    exact hspent (.frame f)
  · rw [hcount, hblocks, Nat.zero_add]
    by_cases hc : c = b
    · subst hc
      refine .inl ⟨if_pos rfl, hused, ?_⟩
      show ¬ (w₁.freed c).heap.map[c]? = some true
      rw [hmap, List.getElem?_set_self']
      cases w.heap.map[c]? <;> simp
    · refine .inr ⟨if_neg fun he => hc (Resource.block.inj he), ?_⟩
      show (w₁.freed b).heap.map[c]? = some true ↔ w.heap.map[c]? = some true
      rw [hmap, List.getElem?_set_ne (Ne.symm hc)]

/-- `~PageManager`. -/
theorem destroyTable_givesBack (level : Nat) (w : World) (t : Nat) :
    GivesBack w id (destroyTable level w t) := by
  induction level generalizing w t with
  | zero => exact .pure rfl
  | succ level ih =>
    refine SpendsTo.foldlM (fun {s i} _ => ?_) w
    split
    · exact .pure rfl
    · refine SpendsTo.bind (SpendsTo.lift fun _ _ => Iff.rfl) ?_
      intro nd _
      cases nd.next i with
      | none => exact .pure rfl
      | some u => exact SpendsTo.bind (ih s u) fun _ => kfree_givesBack _ u

theorem release_givesBack (w : World) (root : Nat) : GivesBack w id (release w root) := by
  have htables := destroyTable_givesBack 3 w root
  rw [release]
  exact SpendsTo.bind htables fun _ => kfree_givesBack _ root

/-! ## The pages of a process -/

theorem freeUserPage_givesBack (w : World) (e : Entry) (v : VAddr) :
    GivesBack w id (freeUserPage w e v) := by
  unfold freeUserPage
  split
  · exact setPageFree_givesBack w _
  · exact SpendsTo.bind (SpendsTo.lift fun _ _ => Iff.rfl) fun _ => .pure rfl

section UnmapUserSpace

variable {R : Nat → Prop} {S d : Nat}

theorem freeUserPages_givesBack (h : Sound w (fun r => R r ∨ r = d) S) :
    GivesBack w id (forEachUserPage World.tables freeUserPage d w) := by
  rw [forEach_freeUserPage_eq h]
  refine SpendsTo.foldlM (fun {s n} _ => ?_) w
  rw [visit]
  split
  · exact freeUserPage_givesBack s _ _
  · exact .pure rfl

/-- `unmapUserSpace`, from where there is the new directory. -/
theorem unmapUserSpace_givesBack {pd : PageDirectory} (hm : mapKernel w = some (w₁, pd))
    (h : Sound w₁ (fun r => R r ∨ r = d) S) : GivesBack w₁ Prod.fst (unmapUserSpace w d) := by
  have hpages := freeUserPages_givesBack h
  rw [unmapUserSpace, hm, lift_some_bind]
  refine SpendsTo.bind hpages fun _ => ?_
  refine SpendsTo.bind (release_givesBack _ d) fun _ => ?_
  exact .pure rfl

end UnmapUserSpace

end Flix.Paging

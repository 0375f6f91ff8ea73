import Flix.Lib.Ownership
import Flix.Paging.Sharing

/-!
# Whose frame it is

A frame that is mapped belongs to the slot that it is mapped in. Slots are what the
directories have in common, so that a page of the kernel's part counts once. Between
`getFreePage` and the write of the entry a frame is in the hands of the code, which
is a holder like the slots.

Ownership is exclusive as long as the `base` field of an entry, which has 40 bits,
can name all the frames there are.

`clone` maps a frame twice for a moment. The slots in `X` are the ones that do not
count.
-/

namespace Flix.Paging

open Function Radix

variable {w w₁ w' : World} {R : Nat → Prop} {S : Nat} {X : Slot → Prop} {hand : Nat → Prop}

/-- Who holds a frame. -/
def Holds (R : Nat → Prop) (X : Slot → Prop) (hand : Nat → Prop) (w : World) :
    Option Slot → Nat → Prop
  | none, f => hand f
  | some s, f =>
    ¬ X s ∧ ∃ r v, R r ∧ slotOf r v = s ∧ (pte w r v).p = true ∧ (pte w r v).base = f

/-- Every frame that is mapped is in use, and mapped once. -/
def OwnedBut (R : Nat → Prop) (X : Slot → Prop) (hand : Nat → Prop) (w : World) : Prop :=
  w.frames.length ≤ 2 ^ 40 → Exclusive (Holds R X hand w) (Used w.frames)

abbrev Owned (R : Nat → Prop) (w : World) : Prop :=
  OwnedBut R (fun _ => False) (fun _ => False) w

/-! ## Frames -/

variable {frames : List Bool} {f r : Nat} {v : VAddr} {e : Entry}

theorem Used.lt (h : Used frames f) : f < frames.length :=
  getElem?_lt h

theorem setPageUsed_length {frames' : List Bool}
    (h : setPageUsed frames f = some frames') : frames.length ≤ frames'.length := by
  obtain ⟨-, h⟩ := of_assert h
  obtain ⟨-, h⟩ := of_assert h
  cases h
  rw [List.length_set]
  split
  · rw [length_append]
    omega
  · exact le_rfl

theorem getFreePage_length {frames' : List Bool}
    (h : getFreePage frames = some (frames', f)) : frames.length ≤ frames'.length := by
  unfold getFreePage at h
  split at h
  · obtain ⟨frames1, hset, heq⟩ := map_eq_some_iff.mp h
    cases heq
    exact setPageUsed_length hset
  · obtain ⟨frames1, hset, heq⟩ := map_eq_some_iff.mp h
    cases heq
    have := setPageUsed_length hset
    rw [length_append] at this
    omega

theorem Used.base_eq (h : Used frames f) (hb : frames.length ≤ 2 ^ 40) : f % 2 ^ 40 = f :=
  Nat.mod_eq_of_lt (h.lt.trans_le hb)

/-- There always is a free page, and it is not beyond the end. -/
theorem getFreePage_total (frames : List Bool) :
    ∃ frames' f, getFreePage frames = some (frames', f) ∧ f ≤ frames.length ∧
      frames'.length ≤ frames.length + 16 := by
  have hset : ∀ {l : List Bool} {i : Nat}, i < l.length → l[i]? = some false →
      setPageUsed l i = some (l.set i true) := by
    intro l i hlt hfree
    rw [setPageUsed, if_neg (by omega), assert_pos hlt,
      assert_pos hfree]
    rfl
  cases hi : frames.findIdx? (fun used => !used) with
  | some i =>
    obtain ⟨hlt, hfree⟩ := findIdx_unused hi
    refine ⟨frames.set i true, i, ?_, hlt.le, ?_⟩
    · rw [getFreePage, hi]
      simp only [hset hlt hfree, map_some]
    · rw [List.length_set]
      omega
  | none =>
    have hlt : frames.length < (frames ++ List.replicate 16 false).length := by simp
    have hfree : (frames ++ List.replicate 16 false)[frames.length]? = some false := by simp
    refine ⟨(frames ++ List.replicate 16 false).set frames.length true, frames.length, ?_, le_rfl,
      ?_⟩
    · rw [getFreePage, hi]
      simp only [hset hlt hfree, map_some]
    · rw [List.length_set, length_append, length_replicate]

theorem getFreePage_first {l : List Bool} {i : Nat} (hfree : l[i]? = some false)
    (hbefore : ∀ j < i, l[j]? = some true) : getFreePage l = some (l.set i true, i) := by
  have hi := getElem?_lt hfree
  have hfind : l.findIdx? (fun used => !used) = some i := by
    refine List.findIdx?_eq_some_iff_getElem.mpr ⟨hi, ?_, fun j hj => ?_⟩
    · rw [List.getElem?_eq_getElem hi] at hfree
      rw [Option.some.inj hfree]
      rfl
    · have hused := hbefore j hj
      rw [List.getElem?_eq_getElem (hj.trans hi)] at hused
      rw [Option.some.inj hused]
      exact Bool.noConfusion
  rw [getFreePage, hfind]
  simp only [setPageUsed, if_neg (not_le.mpr hi), assert_pos hi, assert_pos hfree,
    bind_eq_bind, bind_some, map_some]

/-! ## What keeps ownership -/

theorem OwnedBut.of_view {R' : Nat → Prop} (h : OwnedBut R X hand w)
    (hview : ∀ {r} (v : VAddr), R' r → (pte w' r v).p = true →
      ∃ r', R r' ∧ slotOf r' v = slotOf r v ∧ pte w' r v = pte w r' v)
    (hframes : w'.frames = w.frames) : OwnedBut R' X hand w' := by
  intro hb
  rw [hframes] at hb ⊢
  refine (h hb).drop ?_ fun _ hf => hf
  rintro (_ | s) f hx
  · exact hx
  · obtain ⟨hX, r, v, hr, rfl, hp, rfl⟩ := hx
    obtain ⟨r', hr', hs, heq⟩ := hview v hr hp
    rw [heq] at hp ⊢
    exact ⟨hX, r', v, hr', hs, hp, rfl⟩

theorem OwnedBut.mono {R' : Nat → Prop} (h : OwnedBut R X hand w) (hR : ∀ {r}, R' r → R r) :
    OwnedBut R' X hand w :=
  h.of_view (fun _ hr _ => ⟨_, hR hr, rfl, rfl⟩) rfl

/-- A frame out of the pool is in the hands of the code. -/
theorem OwnedBut.getFreePage (h : OwnedBut R X hand w)
    (hfree : getFreePage w.frames = some (frames, f)) :
    OwnedBut R X (fun g => hand g ∨ g = f) { w with frames := frames } := by
  intro hb
  obtain ⟨hunused, hused⟩ := getFreePage_spec hfree
  have hb0 : w.frames.length ≤ 2 ^ 40 := (getFreePage_length hfree).trans hb
  refine (h hb0).take (z := none) hunused ?_ fun hf => (hused _).mpr hf
  rintro (_ | s) g hg
  · rcases hg with hg | hg
    · exact .inl hg
    · exact .inr ⟨rfl, hg⟩
  · exact .inl hg

theorem Writes.holds (hw : Writes R w w' r v e) {s : Slot} (h : Holds R X hand w' (some s) f) :
    (s ≠ slotOf r v ∧ Holds R X hand w (some s) f) ∨
      (s = slotOf r v ∧ e.p = true ∧ e.base = f) := by
  obtain ⟨hX, r', v', hr', rfl, hp, hf⟩ := h
  rw [hw.view v' hr'] at hp hf
  by_cases hs : slotOf r' v' = slotOf r v
  · rw [if_pos hs] at hp hf
    exact .inr ⟨hs, hp, hf⟩
  · rw [if_neg hs] at hp hf
    exact .inl ⟨hs, hX, r', v', hr', rfl, hp, hf⟩

theorem OwnedBut.clear (h : OwnedBut R X hand w)
    (hw : Writes R w w' r v e) (he : e.p = false) : OwnedBut R X hand w' := by
  intro hb
  rw [hw.frames] at hb ⊢
  refine (h hb).drop ?_ fun _ hf => hf
  rintro (_ | s) f hx
  · exact hx
  · rcases hw.holds hx with ⟨-, hx⟩ | ⟨-, hp, -⟩
    · exact hx
    · rw [he] at hp
      cases hp

/-- A frame goes from the hands of the code into a slot. -/
theorem OwnedBut.place (h : OwnedBut R X (fun g => hand g ∨ g = f) w) (hw : Writes R w w' r v e)
    (hbase : e.base = f % 2 ^ 40) (hf : ¬ hand f) : OwnedBut R X hand w' := by
  intro hb
  rw [hw.frames] at hb ⊢
  have hin : Holds R X (fun g => hand g ∨ g = f) w none f := .inr rfl
  have hused : Used w.frames f := (h hb).marked hin
  refine (h hb).handOver (z := some (slotOf r v)) hin ?_ id
  rintro (_ | s) g hg
  · refine .inl ⟨.inl hg, ?_⟩
    rintro ⟨-, rfl⟩
    exact hf hg
  · rcases hw.holds hg with ⟨-, hg⟩ | ⟨rfl, -, hg⟩
    · exact .inl ⟨hg, fun hc => Option.some_ne_none s hc.1⟩
    · rw [hbase, hused.base_eq hb] at hg
      exact .inr ⟨rfl, hg.symm⟩

theorem OwnedBut.write_uncounted (h : OwnedBut R X hand w)
    (hw : Writes R w w' r v e) (hX : X (slotOf r v)) : OwnedBut R X hand w' := by
  intro hb
  rw [hw.frames] at hb ⊢
  refine (h hb).drop ?_ fun _ hf => hf
  rintro (_ | s) f hx
  · exact hx
  · rcases hw.holds hx with ⟨-, hx⟩ | ⟨rfl, -⟩
    · exact hx
    · exact absurd hX hx.1

theorem OwnedBut.recount {Y : Slot → Prop} (h : OwnedBut R X hand w)
    (hX : ∀ {r v}, R r → X (slotOf r v) → ¬ Y (slotOf r v) → (pte w r v).p = false) :
    OwnedBut R Y hand w := by
  intro hb
  refine (h hb).drop ?_ fun _ hf => hf
  rintro (_ | s) f hx
  · exact hx
  · obtain ⟨hY, r, v, hr, rfl, hp, hf⟩ := hx
    refine ⟨fun hc => ?_, r, v, hr, rfl, hp, hf⟩
    rw [hX hr hc hY] at hp
    cases hp

theorem OwnedBut.setPageFree (h : OwnedBut R X hand w)
    (hfree : Paging.setPageFree w.frames f = some frames)
    (hf : w.frames.length ≤ 2 ^ 40 → ∀ x, ¬ Holds R X hand w x f)
    (hlen : frames.length = w.frames.length) : OwnedBut R X hand { w with frames := frames } := by
  intro hb
  have hb0 : w.frames.length ≤ 2 ^ 40 := hlen ▸ hb
  obtain ⟨-, hused⟩ := setPageFree_spec hfree
  refine Exclusive.drop (?_ : Exclusive (Holds R X hand w) _) (fun {x _} hx => ?_) fun _ hf => hf
  · exact (h hb0).giveBack (hf hb0) fun hg hne => (hused _).mpr ⟨hg, hne⟩
  · cases x <;> exact hx

/-! ## The page heap -/

theorem HeapStep.frames_le (h : HeapStep R w w') : w.frames.length ≤ w'.frames.length := by
  cases h with
  | page _ _ _ hfresh _ _ => exact getFreePage_length hfresh.frame
  | wipe _ hframes _ _ => rw [hframes]

theorem HeapSteps.frames_le (h : HeapSteps R w w') : w.frames.length ≤ w'.frames.length := by
  induction h with
  | refl => exact le_rfl
  | tail _ hs ih => exact ih.trans hs.frames_le

theorem HeapStep.used (h : HeapStep R w w') (hf : Used w.frames f) : Used w'.frames f := by
  cases h with
  | page _ _ _ hfresh _ _ => exact ((getFreePage_spec hfresh.frame).2 f).mpr (.inl hf)
  | wipe _ hframes _ _ => rwa [hframes]

theorem HeapSteps.used (h : HeapSteps R w w') (hf : Used w.frames f) : Used w'.frames f := by
  induction h with
  | refl => exact hf
  | tail _ hs ih => exact hs.used ih

/-- The page heap takes frames for its own pages, and loses some. -/
theorem OwnedBut.heapStep (h : OwnedBut R X hand w) (hs : HeapStep R w w') :
    OwnedBut R X hand w' := by
  intro hb
  have hb0 := hs.frames_le.trans hb
  cases hs with
  | @page b n f _ _ _ hfresh _ _ =>
    obtain ⟨hunused, hused⟩ := getFreePage_spec hfresh.frame
    have hbase : f * PAGE_SIZE / PAGE_SIZE % 2 ^ 40 = f := by
      rw [Nat.mul_div_cancel _ (by decide), ((hused f).mpr (.inr rfl) : Used _ f).base_eq hb]
    refine (h hb0).take (z := some (slotOf w.kernel.root (heapPage b n))) hunused ?_
      fun hf => (hused _).mpr hf
    rintro (_ | s) g hg
    · exact .inl hg
    · obtain ⟨hX, r, v, hr, rfl, hp, hg⟩ := hg
      rw [hfresh.view v hr] at hp hg
      split at hg
      · rename_i hslot
        exact .inr ⟨congrArg some hslot, hg.symm.trans hbase⟩
      · rename_i hslot
        rw [if_neg hslot] at hp
        exact .inl ⟨hX, r, v, hr, rfl, hp, hg⟩
  | wipe hview hframes _ _ =>
    rw [hframes]
    refine (h hb0).drop ?_ fun _ hf => hf
    rintro (_ | s) g hg
    · exact hg
    · obtain ⟨hX, r, v, hr, rfl, hp, hg⟩ := hg
      rcases hview v hr with hv | ⟨-, hv⟩
      · rw [hv] at hp hg
        exact ⟨hX, r, v, hr, rfl, hp, hg⟩
      · rw [hv] at hp
        cases hp

theorem OwnedBut.heapSteps (h : OwnedBut R X hand w) (hs : HeapSteps R w w') :
    OwnedBut R X hand w' := by
  induction hs with
  | refl => exact h
  | tail _ hs ih => exact ih.heapStep hs

/-! ## The operations -/

/-- What all operations keep, for whoever else has tables or blocks. -/
structure Steady (R : Nat → Prop) (S : Nat) (w w' : World) : Prop where
  sound : Sound w' R S
  ext : Extends R w w'
  fresh : ∀ {x}, Fresh w x → Fresh w' x
  frames_le : w.frames.length ≤ w'.frames.length
  used : ∀ {f}, Used w.frames f → Used w'.frames f
  length_le : w.heap.map.length ≤ w'.heap.map.length

theorem Steady.refl (h : Sound w R S) : Steady R S w w := ⟨h, .refl _, id, le_rfl, id, le_rfl⟩

theorem Steady.trans (h : Steady R S w w₁) (h' : Steady R S w₁ w') : Steady R S w w' :=
  ⟨h'.sound, h.ext.trans h'.ext, fun hx => h'.fresh (h.fresh hx), h.frames_le.trans h'.frames_le,
    fun hf => h'.used (h.used hf), h.length_le.trans h'.length_le⟩

theorem Writes.fresh {x : Nat} (hw : Writes R w w' r v e) (hx : Fresh w x) : Fresh w' x :=
  ⟨hw.noTable hx.noTable, by rw [hw.heap]; exact hx.used, by rw [hw.heap]; exact hx.noPool⟩

section Steady

variable {r : Nat} {v : VAddr} {attr : Nat}

theorem mapPageTo_steady {paddr : Nat} (h : Sound w R S) (hr : R r)
    (hm : mapPageTo w r v paddr attr = some w') : Steady R S w w' := by
  obtain ⟨-, w₁, w2, hgrown, -, hwrite, href, hsound, hext⟩ := mapPageTo_spec h hr hm
  refine ⟨hsound, hext, fun hx => href.grown.fresh (hwrite.fresh (hgrown.fresh hx)), ?_, ?_, ?_⟩
  · refine hgrown.steps.frames_le.trans ?_
    rw [← hwrite.frames]
    exact href.grown.steps.frames_le
  · intro f hf
    refine href.grown.steps.used ?_
    rw [hwrite.frames]
    exact hgrown.steps.used hf
  · refine hgrown.steps.length_le.trans ?_
    rw [← hwrite.heap]
    exact href.grown.steps.length_le

theorem getFreePage_steady {frames : List Bool} {f : Nat} (h : Sound w R S)
    (hfree : getFreePage w.frames = some (frames, f)) :
    Steady R S w { w with frames := frames } :=
  ⟨h.withFrames frames, .of_tables rfl rfl rfl, fun hx => { hx with },
    getFreePage_length hfree, fun hf => ((getFreePage_spec hfree).2 _).mpr (.inl hf), le_rfl⟩

theorem mapPage_steady {a : Nat} (h : Sound w R S) (hr : R r)
    (hm : mapPage w r v attr = some (w', a)) : Steady R S w w' := by
  rcases mapPage_cases hm with ⟨-, -, hto⟩ | ⟨-, frames, f, hfree, -, -, hto⟩
  · exact mapPageTo_steady h hr hto
  · exact (getFreePage_steady h hfree).trans
      (mapPageTo_steady (h.withFrames frames) hr hto)

theorem mapRange_steady {n : Nat} (h : Sound w R S) (hr : R r)
    (hm : mapRange w r v attr n = some w') : Steady R S w w' := by
  induction n generalizing w v with
  | zero =>
    cases hm
    exact .refl h
  | succ n ih =>
    obtain ⟨⟨w₁, a⟩, hpage, hm⟩ := of_bind hm
    have hfirst := mapPage_steady h hr hpage
    exact hfirst.trans (ih hfirst.sound hm)

theorem Writes.steady {r : Nat} (hwrite : Writes R w w' r v e) (h : Sound w' R S)
    (hext : Extends R w w') : Steady R S w w' :=
  ⟨h, hext, hwrite.fresh, by rw [hwrite.frames], fun hf => by rw [hwrite.frames]; exact hf,
    by rw [hwrite.heap]⟩

theorem unmapPage_steady {a : Nat} (h : Sound w R S) (hr : R r)
    (hu : unmapPage w r v = some (w', a)) : Steady R S w w' := by
  obtain ⟨-, -, hwrite, hsound, hext⟩ := unmapPage_spec h hr hu
  exact hwrite.steady hsound hext

theorem handleFault_steady {b : Bool} (h : Sound w R S) (hr : R r)
    (hf : handleFault w r v = some (w', b)) : Steady R S w w' := by
  rcases handleFault_spec h hr hf with ⟨-, rfl, -⟩ | ⟨-, -, frames, f, hfree, hwrite, hsound, hext⟩
  · exact .refl h
  · refine ⟨hsound, hext, fun hx => hwrite.fresh { hx with }, ?_, ?_, ?_⟩
    · rw [hwrite.frames]
      exact getFreePage_length hfree
    · intro g hg
      rw [hwrite.frames]
      exact ((getFreePage_spec hfree).2 g).mpr (.inl hg)
    · rw [hwrite.heap]

end Steady

section Operations

variable {r : Nat} {v : VAddr} {attr : Nat}

/-- An entry is written between two runs of the page heap. -/
theorem OwnedBut.mapPageTo_deferred {paddr : Nat} (h : OwnedBut R X hand w) (hs : Sound w R S)
    (hr : R r) (hdefer : attr.testBit 3 = true) (hm : mapPageTo w r v paddr attr = some w') :
    OwnedBut R X hand w' := by
  obtain ⟨-, w₁, w2, hgrown, -, hwrite, href, -, -⟩ := mapPageTo_spec hs hr hm
  refine ((h.heapSteps hgrown.steps).clear hwrite ?_).heapSteps href.grown.steps
  simp [setAttributes, hdefer]

variable {f : Nat}

theorem OwnedBut.mapPageTo_hand (h : OwnedBut R X (fun g => hand g ∨ g = f) w)
    (hs : Sound w R S) (hr : R r) (hf : ¬ hand f)
    (hm : mapPageTo w r v (f * PAGE_SIZE) attr = some w') : OwnedBut R X hand w' := by
  obtain ⟨-, w₁, w2, hgrown, -, hwrite, href, -, -⟩ := mapPageTo_spec hs hr hm
  refine ((h.heapSteps hgrown.steps).place hwrite ?_ hf).heapSteps href.grown.steps
  show f * PAGE_SIZE / PAGE_SIZE % 2 ^ 40 = f % 2 ^ 40
  rw [Nat.mul_div_cancel _ (by decide)]

/-- `mapPage` gives the page a frame of its own. -/
theorem OwnedBut.mapPage {a : Nat} (h : OwnedBut R X (fun _ => False) w) (hs : Sound w R S)
    (hr : R r) (hm : mapPage w r v attr = some (w', a)) : OwnedBut R X (fun _ => False) w' := by
  rcases mapPage_cases hm with ⟨hdefer, -, hto⟩ | ⟨-, frames, f, hfree, -, -, hto⟩
  · exact h.mapPageTo_deferred hs hr hdefer hto
  · exact (h.getFreePage hfree).mapPageTo_hand (hs.withFrames frames) hr id hto

theorem OwnedBut.handleFault {b : Bool} (h : OwnedBut R X (fun _ => False) w) (hs : Sound w R S)
    (hr : R r) (hf : handleFault w r v = some (w', b)) : OwnedBut R X (fun _ => False) w' := by
  rcases handleFault_spec hs hr hf with ⟨-, rfl, -⟩ | ⟨-, -, frames, f, hfree, hwrite, -, -⟩
  · exact h
  · exact (h.getFreePage hfree).place hwrite rfl id

theorem OwnedBut.mapRange {n : Nat} (h : OwnedBut R X (fun _ => False) w) (hs : Sound w R S)
    (hr : R r) (hm : mapRange w r v attr n = some w') : OwnedBut R X (fun _ => False) w' := by
  induction n generalizing w v with
  | zero =>
    cases hm
    exact h
  | succ n ih =>
    obtain ⟨⟨w₁, a⟩, hpage, hm⟩ := of_bind hm
    exact ih (h.mapPage hs hr hpage) (mapPage_steady hs hr hpage).sound hm

theorem OwnedBut.setPageUsed {frames : List Bool} (h : OwnedBut R X hand w)
    (hset : setPageUsed w.frames f = some frames) :
    OwnedBut R X hand { w with frames := frames } := by
  intro hb
  refine (h ((setPageUsed_length hset).trans hb)).drop ?_ fun _ hu => ?_
  · intro x g hx
    cases x with
    | none => exact hx
    | some s => exact hx
  · exact ((setPageUsed_spec hset).2 _).mpr (.inl hu)

/-- A frame that is marked and mapped nowhere is in somebody's hands. -/
theorem OwnedBut.inHand (h : OwnedBut R X (fun _ => False) w) (hused : Used w.frames f)
    (hf : ∀ r v, R r → (pte w r v).p = true → (pte w r v).base ≠ f) :
    OwnedBut R X (fun g => False ∨ g = f) w := by
  intro hb
  have hcases : ∀ {x g}, Holds R X (fun g => False ∨ g = f) w x g →
      (x = none ∧ g = f) ∨ (g ≠ f ∧ Holds R X (fun _ => False) w x g) := by
    intro x g hx
    cases x with
    | none => exact .inl ⟨rfl, hx.resolve_left id⟩
    | some s =>
      obtain ⟨hX, r, v, hr, hs, hp, hbase⟩ := hx
      exact .inr ⟨fun hc => hf r v hr hp (hbase.trans hc), hX, r, v, hr, hs, hp, hbase⟩
  refine ⟨fun {x g} hx => ?_, fun {x y g} hx hy => ?_⟩
  · rcases hcases hx with ⟨-, rfl⟩ | ⟨-, hx⟩
    · exact hused
    · exact (h hb).marked hx
  · rcases hcases hx with ⟨rfl, rfl⟩ | ⟨hne, hx⟩
    · rcases hcases hy with ⟨rfl, -⟩ | ⟨hne, -⟩
      · rfl
      · exact absurd rfl hne
    · rcases hcases hy with ⟨-, rfl⟩ | ⟨-, hy⟩
      · exact absurd rfl hne
      · exact (h hb).unique hx hy

/-- `mapKernel`: the new directory holds nothing of its own. -/
theorem OwnedBut.mapKernel {u : Nat} (h : OwnedBut R X hand w) (hs : Sound w R S)
    (hm : MapsKernel R S w w' u) : OwnedBut (fun r => R r ∨ r = u) X hand w' := by
  refine (h.heapSteps hm.grown.steps).of_view ?_ rfl
  intro r v hr hp
  have hk : R w'.kernel.root := hm.ext.kernel ▸ hs.kernel
  rcases hr with hr | rfl
  · exact ⟨r, hr, rfl, rfl⟩
  · rw [hm.view v] at hp ⊢
    by_cases hv : Shared v
    · rw [if_pos hv]
      exact ⟨_, hk, slotOf_eq_iff.mpr ⟨⟨rfl, rfl⟩, .inr hv⟩, rfl⟩
    · rw [if_neg hv] at hp
      cases hp

end Operations

/-! ## The small kernel -/

theorem smallKernel_owned : Owned (· = 0) smallKernel := by
  intro _
  refine ⟨?_, ?_⟩
  · rintro (_ | s) f hx
    · exact hx.elim
    · obtain ⟨-, r, v, rfl, -, hp, rfl⟩ := hx
      obtain ⟨-, hlt, hbase⟩ := smallKernel_pte v hp
      rw [hbase]
      show (List.replicate 8 false ++ List.replicate 40 true)[8 + index 0 v]? = some true
      rw [List.getElem?_append_right (by simp), List.getElem?_replicate, if_pos (by simp; omega)]
  · rintro (_ | s) (_ | s') f hx hy
    · rfl
    · exact hx.elim
    · exact hy.elim
    · obtain ⟨-, r, v, rfl, rfl, hp, hbase⟩ := hx
      obtain ⟨-, r', v', rfl, rfl, hp', hbase'⟩ := hy
      obtain ⟨hpath, -, hb⟩ := smallKernel_pte v hp
      obtain ⟨hpath', -, hb'⟩ := smallKernel_pte v' hp'
      rw [slotOf, slotOf, hpath, hpath', show index 0 v = index 0 v' by omega]

end Flix.Paging

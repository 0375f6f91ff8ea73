import Flix.Paging.Heap

/-!
# What the operations on a directory do

One lemma for each: `unmapPage` and `handleFault` write one entry, `mapPage` takes
a frame and maps it. Everything later about directories goes through these and
`mapPageTo_spec`.
-/

namespace Flix.Paging

open Function Radix

variable {w w' : World} {R : Nat → Prop} {S : Nat} {r : Nat} {v : VAddr}

/-- A mapping without a frame, to be given one at the first access. -/
def Deferred (e : Entry) : Prop := e.p = false ∧ e.base = INVALID_PAGE

instance (e : Entry) : Decidable (Deferred e) := inferInstanceAs (Decidable (_ ∧ _))

theorem Sound.withFrames (h : Sound w R S) (frames : List Bool) :
    Sound { w with frames := frames } R S := h.of_tables rfl rfl rfl fun _ hx => hx

variable {a attr : Nat} {v' : VAddr}

theorem unmapPage_eq (h : Sound w R S) (hr : R r) (hu : unmapPage w r v = some (w', a)) :
    ∃ t, follow w.tables r (path v) = some t ∧ (pte w r v).p = true ∧
      a = (pte w r v).base * PAGE_SIZE ∧
      w' = w.setEntry t (index 0 v) { pte w r v with p := false, base := 0 } := by
  rw [unmapPage, h.getPage_eq hr] at hu
  cases hf : follow w.tables r (path v) with
  | none =>
    rw [hf] at hu
    cases hu
  | some t =>
    rw [hf] at hu
    simp only [map_some, bind_eq_bind, bind_some, h.entry_eq hr hf] at hu
    obtain ⟨hp, hu⟩ := of_assert hu
    cases hu
    exact ⟨t, rfl, hp, rfl, rfl⟩

theorem unmapPage_spec (h : Sound w R S) (hr : R r) (hu : unmapPage w r v = some (w', a)) :
    (pte w r v).p = true ∧ a = (pte w r v).base * PAGE_SIZE ∧
      Writes R w w' r v { pte w r v with p := false, base := 0 } ∧ Sound w' R S ∧
      Extends R w w' := by
  obtain ⟨t, ht, hp, rfl, rfl⟩ := unmapPage_eq h hr hu
  exact ⟨hp, rfl, h.writes hr ht _⟩

/-- `handleFault` acts on deferred mappings and on nothing else. -/
theorem handleFault_eq (h : Sound w R S) (hr : R r) {b : Bool}
    (hf : handleFault w r v = some (w', b)) :
    (b = false ∧ w' = w ∧ ¬ Deferred (pte w r v)) ∨
    (b = true ∧ Deferred (pte w r v) ∧ ∃ t frames f, follow w.tables r (path v) = some t ∧
      getFreePage w.frames = some (frames, f) ∧ w' = { w with frames := frames }.setEntry t
        (index 0 v) { pte w r v with p := true, base := f % 2 ^ 40 }) := by
  rw [handleFault, h.getPage_eq hr] at hf
  cases hfol : follow w.tables r (path v) with
  | none =>
    rw [hfol] at hf
    cases hf
    refine .inl ⟨rfl, rfl, ?_⟩
    rw [pte_of_none hfol]
    decide
  | some t =>
    rw [hfol] at hf
    simp only [map_some, bind_eq_bind, bind_some, h.entry_eq hr hfol] at hf
    split at hf
    · rename_i hnot
      cases hf
      refine .inl ⟨rfl, rfl, ?_⟩
      rintro ⟨hp, hbase⟩
      rcases hnot with hc | hc
      · rw [hp] at hc
        cases hc
      · exact hc hbase
    · rename_i hdef
      obtain ⟨⟨frames, f⟩, hframe, hf⟩ := of_bind hf
      cases hf
      have hd : Deferred (pte w r v) := by
        refine ⟨?_, ?_⟩
        · simpa using fun hc => hdef (.inl hc)
        · exact not_not.mp fun hc => hdef (.inr hc)
      exact .inr ⟨rfl, hd, t, frames, f, rfl, hframe, rfl⟩

theorem handleFault_spec (h : Sound w R S) (hr : R r) {b : Bool}
    (hf : handleFault w r v = some (w', b)) :
    (b = false ∧ w' = w ∧ ¬ Deferred (pte w r v)) ∨
    (b = true ∧ Deferred (pte w r v) ∧ ∃ frames f, getFreePage w.frames = some (frames, f) ∧
      Writes R { w with frames := frames } w' r v
        { pte w r v with p := true, base := f % 2 ^ 40 } ∧
      Sound w' R S ∧ Extends R w w') := by
  rcases handleFault_eq h hr hf with hnot | ⟨rfl, hd, t, frames, f, ht, hframe, rfl⟩
  · exact .inl hnot
  · have hext0 : Extends R w { w with frames := frames } := .of_tables rfl rfl rfl
    obtain ⟨hw, hs, hext⟩ := (h.withFrames frames).writes hr ht _
    exact .inr ⟨rfl, hd, frames, f, hframe, hw, hs, hext0.trans hext⟩

/-- `mapPage` maps no frame or a free one. -/
theorem mapPage_cases (hm : mapPage w r v attr = some (w', a)) :
    (attr.testBit 3 = true ∧ a = INVALID_PHYS ∧
      mapPageTo w r v INVALID_PHYS attr = some w') ∨
    (attr.testBit 3 = false ∧ ∃ frames f, getFreePage w.frames = some (frames, f) ∧
      f ≠ INVALID_PAGE ∧ a = f * PAGE_SIZE ∧
      mapPageTo { w with frames := frames } r v (f * PAGE_SIZE) attr = some w') := by
  rw [mapPage, mapPageBy] at hm
  split at hm
  · rename_i hdefer
    obtain ⟨w1, hmap, hm⟩ := of_bind hm
    cases hm
    exact .inl ⟨hdefer, rfl, hmap⟩
  · rename_i hdefer
    obtain ⟨⟨frames, f⟩, hframe, hm⟩ := of_bind hm
    obtain ⟨hne, hm⟩ := of_assert hm
    obtain ⟨w1, hmap, hm⟩ := of_bind hm
    cases hm
    exact .inr ⟨by simpa using hdefer, frames, f, hframe, hne, rfl, hmap⟩

/-- What `mapPageTo` does to pages that are not the heap's: one entry is written, at most. -/
theorem mapPageTo_view {paddr : Nat} (h : Sound w R S) (hr : R r)
    (hm : mapPageTo w r v paddr attr = some w') : ∃ e, (¬ HeapPage w' r v → (pte w r v).p = false ∧
        e = setAttributes attr ((pte w r v).present paddr)) ∧
      ∀ {r'} (v' : VAddr), R r' → ¬ HeapPage w' r' v' →
        pte w' r' v' = if slotOf r' v' = slotOf r v then e else pte w r' v' := by
  obtain ⟨-, w1, w2, hgrown, hp, hwrite, href, -, -⟩ := mapPageTo_spec h hr hm
  -- a page that is not the heap's in the end never was
  have hold : ∀ {r'} {v' : VAddr}, ¬ HeapPage w' r' v' → ¬ HeapPage w1 r' v' := by
    intro r' v' hv hc
    refine hv (hc.mono (href.grown.steps.kernel_eq.trans hwrite.kernel) ?_)
    have hlen := href.grown.steps.length_le
    rwa [hwrite.heap] at hlen
  refine ⟨setAttributes attr ((pte w1 r v).present paddr), fun hv => ?_, fun v' hr' hv' => ?_⟩
  · rw [← hgrown.steps.pte_eq hr (hold hv)]
    exact ⟨hp, rfl⟩
  · rw [href.grown.steps.pte_eq hr' hv', hwrite.view v' hr', hgrown.steps.pte_eq hr' (hold hv')]

theorem mapPage_view (h : Sound w R S) (hr : R r) (hm : mapPage w r v attr = some (w', a)) :
    ∃ e, (¬ HeapPage w' r v → (pte w r v).p = false ∧
        e = setAttributes attr ((pte w r v).present a)) ∧
      ∀ {r'} (v' : VAddr), R r' → ¬ HeapPage w' r' v' →
        pte w' r' v' = if slotOf r' v' = slotOf r v then e else pte w r' v' := by
  rcases mapPage_cases hm with ⟨-, rfl, hto⟩ | ⟨-, frames, f, -, -, rfl, hto⟩
  · exact mapPageTo_view h hr hto
  · have hview := mapPageTo_view (h.withFrames frames) hr hto
    exact hview

/-! ## Canonical addresses -/

/-- The addresses of which the upper 17 bits are equal. -/
def Canonical (v : VAddr) : Prop := v.toNat < 2 ^ 47 ∨ 2 ^ 64 - 2 ^ 47 ≤ v.toNat

instance (v : VAddr) : Decidable (Canonical v) := inferInstanceAs (Decidable (_ ∨ _))

/-- The number of the page that contains the address. -/
def pageOf (v : VAddr) : Nat := v.toNat / PAGE_SIZE

/-- The indices are the lower 36 bits of the page number. -/
theorem path_eq_iff :
    (path v = path v' ∧ index 0 v = index 0 v') ↔ pageOf v % 2 ^ 36 = pageOf v' % 2 ^ 36 := by
  simp only [path, index, pageOf, PAGE_SIZE, List.cons.injEq, and_true]
  omega

/-- Canonical addresses on one page are those with the same indices. -/
theorem Canonical.path_eq_iff (hv : Canonical v) (hv' : Canonical v') :
    (path v = path v' ∧ index 0 v = index 0 v') ↔ pageOf v = pageOf v' := by
  rw [Paging.path_eq_iff]
  simp only [Canonical, pageOf, PAGE_SIZE] at *
  omega

theorem Canonical.slotOf_eq_iff (hv : Canonical v) (hv' : Canonical v') :
    slotOf r v = slotOf r v' ↔ pageOf v = pageOf v' := by
  rw [Paging.slotOf_eq_iff, hv.path_eq_iff hv']
  exact ⟨fun h => h.1, fun h => ⟨h, .inl rfl⟩⟩

end Flix.Paging

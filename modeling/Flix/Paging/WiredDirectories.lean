import Flix.Paging.Wiring

/-!
# Directories come and go

A new directory has two tables of its own, and its second one gets the entry and the pointer
that the kernel's directory has for the shared table. Both ways lead to the same place there,
because they did so before.

A directory that is taken down gives its tables back to the page heap, which unmaps their
pages. No path to a table is new (`Trimmed`), so that the blocks that go are never ones that
another directory leads to, and of those no page is missing.
-/

namespace Flix.Paging

open Function Radix Traced

variable {w w₁ w₂ w' : World} {R : Nat → Prop} {S : Nat} {B C : Nat → Nat → Prop}

theorem Names.of_reached (h : Names B R w)
    (hreach : ∀ {r p t}, R r → follow w'.tables r p = some t →
      follow w.tables r p = some t ∧ w'.tables t = w.tables t) : Names B R w' := by
  refine ⟨fun {r p t n i u} hr hp hn hu => ?_⟩
  obtain ⟨hp, ht⟩ := hreach hr hp
  rw [ht] at hn
  exact h.entry hr hp hn hu

/-! ## A new directory -/

/-- A block in use stays where it is when another is taken. -/
theorem PageAt.allocBlock {u x phys f : Nat} (hat : PageAt w x f) (h : Wired R C S w)
    (hidle : w.heap.allocating = false) (ha : allocBlock w = some (w₁, u, phys))
    (hx : w.heap.map[x]? = some true) : PageAt w₁ x f := by
  have hnext := allocBlock_room hidle h.room ha
  obtain ⟨hu, ht⟩ := allocBlock_took h.sound hidle hnext ha
  have hxu : x ≠ u := by
    rintro rfl
    exact ht.free hx
  have hxlt := (getElem?_lt hx).trans_le h.room
  exact hat.of_pte ht.alloc.ext.kernel
    (ht.pte_other (hu ▸ hnext) hxlt (by omega) h.sound.kernel (.inl hxu))

theorem PageAt.blanked {u x f : Nat} (hat : PageAt w x f) (hu : Fresh w u) :
    PageAt (w.blanked u) x f := hat.of_pte rfl (leaf_new hu.noTable)

theorem Wired.blanked {u : Nat} (h : Wired R C S w) (hu : Fresh w u) :
    Wired R C S (w.blanked u) := by
  refine h.keep (hu.blanked h.sound).1 h.room
    ⟨h.names.of_reached fun {r p t} hr hp => ?_, h.pool⟩ rfl fun _ hat => hat.blanked hu
  have hp : follow w.tables r p = some t := (follow_new hu.noTable).symm.trans hp
  exact ⟨hp, update_of_ne (hu.ne (h.sound.live hr hp)) ..⟩

section NewRoot

variable {u u' : Nat} {e e' : Entry}

theorem Names.newRoot (hs : Sound w R S) (h : Names B R w)
    (hn : w.tables u = some (oneSlot 511 e u')) (hn' : w.tables u' = some (oneSlot 511 e' S))
    (he : e.p = true ∧ B u' e.base) (he' : e'.p = true ∧ B S e'.base) :
    Names B (fun r => R r ∨ r = u) w := by
  have hone : ∀ {x j k y : Nat} {a : Entry}, (oneSlot j a k).next x = some y →
      x = j ∧ y = k ∧ (oneSlot j a k).entries x = a := by
    intro x j k y a hx
    obtain ⟨rfl, rfl⟩ := oneSlot_next.mp hx
    exact ⟨rfl, rfl, by simp [oneSlot]⟩
  refine ⟨fun {r p t n i x} hr hp ht hx => ?_⟩
  rcases hr with hr | rfl
  · exact h.entry hr hp ht hx
  · rcases follow_new_root hn hn' hp with ⟨-, rfl⟩ | ⟨-, rfl⟩ | ⟨q, rfl, -⟩
    · cases hn.symm.trans ht
      obtain ⟨-, rfl, hentry⟩ := hone hx
      rw [hentry]
      exact he
    · cases hn'.symm.trans ht
      obtain ⟨-, rfl, hentry⟩ := hone hx
      rw [hentry]
      exact he'
    · -- in the shared part it is as for the kernel
      rw [← follow_kernel_shared hs hn hn' hs.kernel] at hp
      exact h.entry hs.kernel hp ht hx

end NewRoot

/-- The directories there are, with a new one. -/
def withRoot (C : Nat → Nat → Prop) (pd : PageDirectory) (r f : Nat) : Prop :=
  C r f ∨ (r = pd.root ∧ f = pd.base)

variable {pd : PageDirectory}

/-- `mapKernel`: a directory more, wired like the others. -/
theorem Wired.mapKernel (h : Wired R C S w)
    (hidle : w.heap.allocating = false) (hm : mapKernel w = some (w', pd)) :
    Wired (fun r => R r ∨ r = pd.root) (withRoot C pd) S w' ∧ w'.heap.allocating = false := by
  have hmap := mapKernel_spec h.sound hm
  obtain ⟨w₁, phys, w3, u', phys', e, e', ha, ha', hw', hentries⟩ := mapKernel_cases h.sound hm
  obtain ⟨u, base⟩ := pd
  have halloc := allocBlock_spec h.sound ha
  obtain ⟨h1, hat1⟩ := h.allocBlock hidle ha
  have h2 := h1.blanked halloc.block
  have hidle2 : w₁.heap.allocating = false := halloc.grown.allocating.trans hidle
  have halloc' := allocBlock_spec h2.sound ha'
  obtain ⟨h3, hat3'⟩ := h2.allocBlock hidle2 ha'
  -- where the two blocks are
  have hat3 : PageAt w3 u (baseOf phys) :=
    (hat1.blanked halloc.block).allocBlock h2 hidle2 ha' halloc.block.used
  obtain ⟨hne, -, hfar3⟩ := halloc.second halloc'
  -- for the other directories nothing has changed
  have hk' : w'.kernel = w3.kernel := by rw [hw']; rfl
  have hpage : ∀ {x f}, PageAt w3 x f → PageAt w' x f := by
    intro x f hat
    refine hat.of_pte hk' ?_
    rw [hw', pte_newRoot halloc'.sound hfar3 halloc'.block h3.sound.kernel]
  have hknown : Known (PageAt w3) R w' := by
    refine ⟨h3.names.of_reached fun {r p t} hr hp => ?_, fun hx => h3.pool ?_⟩
    · rw [hw', follow_newRoot halloc'.sound hfar3 halloc'.block hr] at hp
      refine ⟨hp, ?_⟩
      rw [hw']
      refine newRoot_of_ne (fun hc => hfar3 hr (hc ▸ hp)) (fun hc => ?_)
      exact halloc'.block.unreached halloc'.sound hr (hc ▸ hp)
    · rw [hw'] at hx
      exact hx
  have hs' : Sound w' R S := hmap.sound.mono .inl (hk' ▸ h3.sound.kernel)
  have hwired := h3.keep hs' (by rw [hw']; exact h3.room) hknown (by rw [hw']; rfl)
    fun _ hat => hpage hat
  -- the new root
  have hn : w'.tables u = some (oneSlot 511 e u') := by
    rw [hw']
    exact newRoot_root
  have hn' : w'.tables u' = some (oneSlot 511 e' S) := by
    rw [hw']
    exact newRoot_second hne.symm
  have he : e.p = true ∧ PageAt w' u' e.base := by
    refine ⟨hentries.p, ?_⟩
    rw [hentries.table]
    exact hpage hat3'
  have he' : e'.p = true ∧ PageAt w' S e'.base := by
    obtain ⟨t, n, ht, htn, hnext, rfl⟩ := hentries.copied
    obtain ⟨hp, hat⟩ := h3.names.entry h3.sound.kernel ht htn hnext
    exact ⟨hp, hpage hat⟩
  refine ⟨⟨hmap.sound, hwired.room, ?_, ?_, hwired.names.newRoot hs' hn hn' he he', hwired.pool,
    hwired.static⟩, hmap.grown.allocating.trans hidle⟩
  · intro r f hc
    rcases hc with hc | ⟨rfl, rfl⟩
    · obtain ⟨hr, hat⟩ := hwired.cr3 hc
      exact ⟨.inl hr, hat⟩
    · have hbase : f = baseOf phys := hentries.base
      rw [hbase]
      exact ⟨.inr rfl, hpage hat3⟩
  · intro r hr
    rcases hr with hr | rfl
    · obtain ⟨f, hf⟩ := h.roots hr
      exact ⟨f, .inl hf⟩
    · exact ⟨base, .inr ⟨rfl, rfl⟩⟩

/-! ## What is left of the tables -/

/-- Some tables are gone. The others have their pointers. -/
structure Trimmed (w w' : World) : Prop where
  node : ∀ {t n'}, w'.tables t = some n' → ∃ n, w.tables t = some n ∧ n'.next = n.next

namespace Trimmed

theorem of_tables (ht : w'.tables = w.tables) : Trimmed w w' :=
  ⟨fun hn => ⟨_, ht ▸ hn, rfl⟩⟩

theorem setEntry (t i : Nat) (e : Entry) : Trimmed w (w.setEntry t i e) := by
  refine ⟨fun {t' n'} hn' => ?_⟩
  rw [setEntry_tables] at hn'
  by_cases htt : t' = t
  · rw [htt, Radix.setEntry, update_self] at hn'
    obtain ⟨n, hn, rfl⟩ := map_eq_some_iff.mp hn'
    exact ⟨n, htt ▸ hn, rfl⟩
  · rw [setEntry_of_ne htt] at hn'
    exact ⟨n', hn', rfl⟩

theorem freed (b : Nat) : Trimmed w (w.freed b) := by
  refine ⟨fun {t n'} hn' => ?_⟩
  have hn' : update w.tables b none t = some n' := hn'
  by_cases htb : t = b
  · rw [htb, update_self] at hn'
    cases hn'
  · rw [update_of_ne htb] at hn'
    exact ⟨n', hn', rfl⟩

theorem trans (h : Trimmed w w₁) (h' : Trimmed w₁ w₂) : Trimmed w w₂ := by
  refine ⟨fun hn2 => ?_⟩
  obtain ⟨n1, hn1, hnext1⟩ := h'.node hn2
  obtain ⟨n, hn, hnext⟩ := h.node hn1
  exact ⟨n, hn, hnext1.trans hnext⟩

theorem follow_eq (h : Trimmed w w') {r t : Nat} {p : List Nat}
    (hp : follow w'.tables r p = some t) : follow w.tables r p = some t := by
  induction p generalizing r with
  | nil => exact hp
  | cons i p ih =>
    obtain ⟨n', hn', hp⟩ := of_bind hp
    obtain ⟨u, hu, hp⟩ := of_bind hp
    obtain ⟨n, hn, hnext⟩ := h.node hn'
    rw [follow_cons hn, ← hnext, hu]
    exact ih hp

end Trimmed

/-- The directories of `R` while the tables of another go, which was there in `w₀`. -/
structure Left (R : Nat → Prop) (C : Nat → Nat → Prop) (S : Nat) (w₀ w : World) : Prop where
  wired : Wired R C S w
  trimmed : Trimmed w₀ w
  pool : w.heap.pool = w₀.heap.pool
  idle : w.heap.allocating = w₀.heap.allocating
  kernel : w.kernel = w₀.kernel

/-- Whatever is noted. -/
abbrev Leaves (Q : World → Prop) (x : Traced Call World) : Prop :=
  Spec False (fun _ => True) Q x

section Release

variable {w₀ : World} {d : Nat}

theorem Left.inUse {u : Nat} (h : Left R C S w₀ w) (hu : InUse R w u) : InUse R w₀ u :=
  hu.mono (fun _ => h.trimmed.follow_eq) (h.pool ▸ id)

variable {b : Nat}

theorem Left.unmapAndFree {n : Nat} (h : Left R C S w₀ w) (hb : ¬ InUse R w₀ b)
    (hlt : b < 2 ^ 16) (hn : n < 2) : Leaves (Left R C S w₀) (unmapAndFree w (heapPage b n)) := by
  refine (Spec.lift id
    False.elim).bind ?_
  intro x _ hu
  obtain ⟨w₁, a⟩ := x
  refine (Spec.note trivial).bind fun _ _ => ?_
  refine (Spec.lift (fun _ => trivial) False.elim).bind fun _ _ => .pure ?_
  have hslot : ∀ {u}, InUse R w u →
      slotOf w.kernel.root (heapPage u 0) ≠ slotOf w.kernel.root (heapPage b n) := by
    intro u huse hs
    obtain ⟨rfl, -⟩ := slotOf_heapPage (h.wired.lt huse) hlt (by omega) hn hs
    exact hb (h.inUse huse)
  obtain ⟨h1, t, e, rfl⟩ := h.wired.unmap h.wired.sound.kernel hslot hu
  exact ⟨h1.withFrames _, (h.trimmed.trans (.setEntry t _ e)).trans (.of_tables rfl), h.pool,
    h.idle, h.kernel⟩

/-- A table goes that no directory of `R` leads to. -/
theorem Left.kfree (h : Left R C S w₀ w) (hb : Unreached R w₀ b)
    (hpool : ∀ x ∈ w₀.heap.pool, x.1 ≠ b) : Leaves (Left R C S w₀) (kfree w b) := by
  refine (Spec.note trivial).bind fun _ _ => (Spec.assert False.elim).bind fun _ hused => ?_
  have hlt : b < 2 ^ 16 := (getElem?_lt hused).trans_le h.wired.room
  have hpages : Leaves (Left R C S w₀) (freeBlockPages w b) := by
    unfold freeBlockPages
    split
    · have hfar : ¬ InUse R w₀ b := by
        intro hu
        cases hu with
        | table hr hp => exact hb hr hp
        | pool hx hxu => exact hpool _ hx hxu
        | static hu => omega
      have e0 : pageToPtr b = heapPage b 0 := by simp [heapPage]
      have e1 : pageToPtr b + 0x1000 = heapPage b 1 := rfl
      rw [e1, e0]
      exact (h.unmapAndFree hfar hlt (by omega)).bind fun _ h1 =>
        h1.unmapAndFree hfar hlt (by omega)
    · exact .pure h
  refine hpages.bind fun {w₁} _ h1 => .pure ?_
  have hb1 : Unreached R w₁ b := fun _ _ hr hp => hb hr (h1.trimmed.follow_eq hp)
  have hs : Sound (w₁.freed b) R S := h1.wired.sound.freeBlock hb1 (h1.pool ▸ hpool)
  refine ⟨h1.wired.keep hs ?_ ⟨h1.wired.names.of_reached ?_, h1.wired.pool⟩ rfl ?_,
    h1.trimmed.trans (.freed b), h1.pool, h1.idle, h1.kernel⟩
  · show (w₁.heap.map.set b false).length ≤ _
    rw [List.length_set]
    exact h1.wired.room
  · intro r p t hr hp
    have hp := Trimmed.follow_eq (.freed b) hp
    exact ⟨hp, update_of_ne (fun hc => hb1 hr (hc ▸ hp)) ..⟩
  · intro u f _ hat
    exact hat.of_pte rfl (pte_freeBlock hb1 h1.wired.sound.kernel _)

variable (h₀ : Sound w₀ (fun r => R r ∨ r = d) S) (hd : ¬ R d)
include h₀

theorem freeUserPages_frames :
    Leaves (fun w => ∃ frames, w = { w₀ with frames := frames })
      (forEachUserPage World.tables freeUserPage d w₀) := by
  rw [forEach_freeUserPage_eq h₀]
  refine Spec.foldlM (fun _ w => ∃ frames, w = { w₀ with frames := frames }) ⟨w₀.frames, rfl⟩ ?_
  intro w n rest hw
  obtain ⟨frames, rfl⟩ := hw
  rw [visit]
  split
  · unfold freeUserPage
    split
    · refine (Spec.note trivial).bind fun _ _ => ?_
      refine (Spec.lift (Q := fun _ => True) (fun _ => trivial) False.elim).bind fun _ _ => ?_
      exact .pure ⟨_, rfl⟩
    · exact (Spec.assert False.elim).bind fun _ _ => .pure ⟨_, rfl⟩
  · exact .pure ⟨_, rfl⟩

include hd

theorem Left.kfreeKept {p : List Nat} (h : Left R C S w₀ w) (hp : Kept p)
    (hb : follow w₀.tables d p = some b) : Leaves (Left R C S w₀) (Paging.kfree w b) := by
  refine h.kfree (hp.unreached h₀ hd hb) fun x hx hc => ?_
  have hlive := h₀.live (.inr rfl) hb
  rw [← hc, (h₀.poolBlock hx).2] at hlive
  cases hlive

theorem Left.destroyTable (level : Nat) {q : List Nat} {t : Nat} (h : Left R C S w₀ w)
    (hq : follow w₀.tables d q = some t) (hkept : Kept q) (hlen : q.length + level = 3) :
    Leaves (Left R C S w₀) (destroyTable level w t) := by
  induction level generalizing w q t with
  | zero => exact .pure h
  | succ level ih =>
    refine Spec.foldlM_range (fun _ => Left R C S w₀) h ?_
    intro w i hi hw
    split
    · exact .pure hw
    · rename_i hskip
      refine (Spec.lift id False.elim).bind
        fun {nd} _ hnd => ?_
      cases hu : nd.next i with
      | none => exact .pure hw
      | some u =>
        -- the pointer was there before
        obtain ⟨n, hn, hnext⟩ := hw.trimmed.node hnd
        have hsnoc : follow w₀.tables d (q ++ [i]) = some u := by
          rw [follow_snoc hq hn, ← hnext, hu]
        have hkept' := hkept.snoc hi hlen hskip
        exact (ih hw hsnoc hkept' (by simp; omega)).bind fun _ h1 =>
          h1.kfreeKept h₀ hd hkept' hsnoc

/-- `release` leaves the other directories wired. -/
theorem Wired.release (h : Wired R C S w₀) : Leaves (Left R C S w₀) (release w₀ d) := by
  have hstart : Left R C S w₀ w₀ := ⟨h, .of_tables rfl, rfl, rfl, rfl⟩
  have hroot : follow w₀.tables d [] = some d := rfl
  have hnil : Kept [] := ⟨by simp, by simp⟩
  rw [Paging.release]
  exact (hstart.destroyTable h₀ hd 3 hroot hnil rfl).bind fun _ h1 =>
    h1.kfreeKept h₀ hd hnil hroot

end Release

/-! ## A directory less -/

theorem Wired.mono {R' : Nat → Prop} {C' : Nat → Nat → Prop} (h : Wired R C S w)
    (hR : ∀ {r}, R' r → R r) (hk : R' w.kernel.root) (hC : ∀ {r f}, C' r f → C r f ∧ R' r)
    (hroots : ∀ {r}, R' r → ∃ f, C' r f) : Wired R' C' S w :=
  ⟨h.sound.mono hR hk, h.room, fun hc => ⟨(hC hc).2, (h.cr3 (hC hc).1).2⟩, hroots,
    ⟨fun hr => h.names.entry (hR hr)⟩, h.pool, h.static⟩

/-- Another directory becomes the kernel's. The heap is in the part that they share. -/
theorem Wired.adopt (h : Wired R C S w) (hr : R pd.root) : Wired R C S { w with kernel := pd } := by
  have hs : Sound { w with kernel := pd } R S :=
    ⟨hr, h.sound.rootShares, h.sound.live, h.sound.label, h.sound.depth, h.sound.absent,
      h.sound.block, h.sound.poolBlock, h.sound.poolNodup⟩
  refine h.keep hs h.room ⟨h.names.of_tables rfl, h.pool⟩ rfl ?_
  intro u f hu hat
  have hu0 : InUse R w u := hu.mono (fun _ => id) id
  have hshared := heapPage_shared (n := 0) (by omega) (heapPage_high (h.lt hu0) (by omega))
  have hslot : slotOf pd.root (heapPage u 0) = slotOf w.kernel.root (heapPage u 0) :=
    slotOf_eq_iff.mpr ⟨⟨rfl, rfl⟩, .inr hshared⟩
  have hview := h.sound.pte_of_slot hr h.sound.kernel hslot
  show (pte w pd.root _).p = true ∧ (pte w pd.root _).base = f
  rw [hview]
  exact hat

/-- The destructor of a directory, with its pages. -/
def dismiss (w : World) (d : Nat) : Traced Call World := do
  let w ← forEachUserPage World.tables freeUserPage d w
  release w d

theorem unmapUserSpace_result {d : Nat}
    (hu : (unmapUserSpace w d : Traced Call (World × PageDirectory)).result = some (w', pd)) :
    ∃ w₁, mapKernel w = some (w₁, pd) ∧ (dismiss w₁ d).result = some w' := by
  unfold unmapUserSpace at hu
  simp only [result_bind] at hu
  obtain ⟨⟨w₁, pd1⟩, hm, hu⟩ := of_bind hu
  obtain ⟨w₂, hpages, hu⟩ := of_bind hu
  obtain ⟨w3, hrelease, hu⟩ := of_bind hu
  cases hu
  refine ⟨w₁, hm, ?_⟩
  unfold dismiss
  rw [result_bind]
  exact bind_eq_some_iff.mpr ⟨w₂, hpages, hrelease⟩

section Dismiss

variable {d : Nat} (hd : R d) (hdk : d ≠ w.kernel.root)
include hd

theorem of_kept {r : Nat} (hr : (R r ∧ r ≠ d) ∨ r = d) : R r := by
  rcases hr with ⟨hr, -⟩ | hr
  · exact hr
  · exact hr ▸ hd

include hdk

/-- A directory is taken down that is not the kernel's. -/
theorem Wired.dismiss (h : Wired R C S w) :
    Leaves (fun w' => Wired (fun r => R r ∧ r ≠ d) (fun r f => C r f ∧ r ≠ d) S w' ∧
      w'.heap.allocating = w.heap.allocating ∧ w'.kernel = w.kernel) (dismiss w d) := by
  have hk : R w.kernel.root ∧ w.kernel.root ≠ d := ⟨h.sound.kernel, hdk.symm⟩
  have hs : Sound w (fun r => (R r ∧ r ≠ d) ∨ r = d) S := h.sound.mono (of_kept hd) (.inl hk)
  have hrest : Wired (fun r => R r ∧ r ≠ d) (fun r f => C r f ∧ r ≠ d) S w := by
    refine h.mono And.left hk (fun hc => ⟨hc.1, (h.cr3 hc.1).1, hc.2⟩) fun hr => ?_
    obtain ⟨f, hf⟩ := h.roots hr.1
    exact ⟨f, hf, hr.2⟩
  have hpages := freeUserPages_frames hs
  unfold Paging.dismiss
  refine hpages.bind fun {w₂} _ hw2 => ?_
  obtain ⟨frames, rfl⟩ := hw2
  have hrelease := (hrest.withFrames frames).release (hs.withFrames frames) fun hc => hc.2 rfl
  exact hrelease.mono fun hleft => ⟨hleft.wired, hleft.idle, hleft.kernel⟩

theorem dismiss_owned (h : Sound w R S) (ho : Owned R w)
    (hres : (dismiss w d).result = some w') : Owned (fun r => R r ∧ r ≠ d) w' := by
  have hk : R w.kernel.root ∧ w.kernel.root ≠ d := ⟨h.kernel, hdk.symm⟩
  have hs : Sound w (fun r => (R r ∧ r ≠ d) ∨ r = d) S := h.mono (of_kept hd) (.inl hk)
  have ho : Owned (fun r => (R r ∧ r ≠ d) ∨ r = d) w := ho.mono (of_kept hd)
  have hnot : ¬ (R d ∧ d ≠ d) := fun hc => hc.2 rfl
  unfold dismiss at hres
  rw [result_bind] at hres
  obtain ⟨w₂, hpages, hrelease⟩ := of_bind hres
  have hfreed := (freeUserPages_spec ho hnot hs (fun hc : False => hc.elim)).post hpages
  have hs2 : Sound w₂ (fun r => (R r ∧ r ≠ d) ∨ r = d) S := by
    rw [hfreed.eq]
    exact hs.withFrames _
  have hk2 : R w₂.kernel.root ∧ w₂.kernel.root ≠ d := by
    rw [hfreed.eq]
    exact hk
  exact ((release_spec hs2 hnot (fun hc : False => hc.elim) hk2
    (hfreed.owned ho hnot le_rfl)).post hrelease).owned

end Dismiss

end Flix.Paging

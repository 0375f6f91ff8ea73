import Flix.Paging.Directory

/-!
# Directories of processes

`mapKernel` builds a directory of two tables, and the second of them leads to the
table that all directories share. So the kernel's addresses are the same everywhere,
and everything else is the directory's own.
-/

namespace Flix.Paging

open Function Radix Runs

variable {w w₁ w' : World} {R : Nat → Prop} {S : Nat}

/-! ## Tables that nothing leads to -/

/-- No directory in use leads to the table. -/
def Unreached (R : Nat → Prop) (w : World) (t : Nat) : Prop :=
  ∀ ⦃r q⦄, R r → follow w.tables r q ≠ some t

theorem Fresh.unreached {u : Nat} (hu : Fresh w u) (h : Sound w R S) : Unreached R w u :=
  fun _ _ hr hq => hu.ne (h.live hr hq) rfl

variable {t : Nat} {pd : PageDirectory}

/-- A table that nothing leads to can be anything, or be taken away. -/
theorem Sound.update_unreached (h : Sound w R S) (x : Option (Node Entry))
    (ht : Unreached R w t) (hblock : x.isSome → w.heap.map[t]? = some true)
    (hpool : ∀ b ∈ w.heap.pool, b.1 ≠ t) : Sound { w with tables := update w.tables t x } R S := by
  have hfollow : ∀ {r p}, R r → follow (update w.tables t x) r p = follow w.tables r p :=
    fun hr => follow_update fun q => ht hr
  have hnode : ∀ {r p t'}, R r → follow w.tables r p = some t' →
      update w.tables t x t' = w.tables t' := by
    intro r p t' hr hp
    refine update_of_ne ?_ ..
    rintro rfl
    exact ht hr hp
  refine ⟨h.kernel, ?_, ?_, ?_, ?_, ?_, ?_, ?_, h.poolNodup⟩
  · exact fun hr => (hfollow hr).trans (h.rootShares hr)
  · intro r p t' hr hp
    have hp' := (hfollow hr).symm.trans hp
    exact (congrArg Option.isSome (hnode hr hp')).trans (h.live hr hp')
  · exact fun hr hr' hp hp' =>
      h.label hr hr' ((hfollow hr).symm.trans hp) ((hfollow hr').symm.trans hp')
  · exact fun hr hp => h.depth hr ((hfollow hr).symm.trans hp)
  · intro r p t' n i hr hp hn hlen hnone
    have hp' := (hfollow hr).symm.trans hp
    exact h.absent hr hp' ((hnode hr hp').symm.trans hn) hlen hnone
  · intro t' ht'
    by_cases htt : t' = t
    · subst htt
      exact hblock (by simpa using ht')
    · exact h.block (by simpa [update_of_ne htt] using ht')
  · intro b hb
    exact ⟨(h.poolBlock hb).1, (update_of_ne (hpool b hb) ..).trans (h.poolBlock hb).2⟩

/-- Tables that are not among the old ones may differ. -/
theorem Extends.of_new (h : Extends R w w₁)
    (htables : ∀ {t}, (w.tables t).isSome → w'.tables t = w₁.tables t)
    (hfollow : ∀ {r q}, R r → follow w'.tables r q = follow w₁.tables r q)
    (hk : w'.kernel = w₁.kernel) (hs : w'.pageHeapStart = w₁.pageHeapStart) : Extends R w w' := by
  refine ⟨?_, ?_, ?_, hk.trans h.kernel, hs.trans h.start⟩
  · intro t n hn
    obtain ⟨n', hn', hnext⟩ := h.node hn
    exact ⟨n', (htables (by rw [hn]; rfl)).trans hn', hnext⟩
  · exact fun hr ht hq => h.before hr ht ((hfollow hr).symm.trans hq)
  · exact fun ht hfar => (htables ht).trans (h.foreign ht hfar)

/-! ## A new root -/

section Root

variable {u u' : Nat} {e e' : Entry} (h : Sound w R S)
  (hn : w.tables u = some (oneSlot 511 e u')) (hn' : w.tables u' = some (oneSlot 511 e' S))
include hn hn'

/-- What there is below such a root: itself, its one table, and the shared part. -/
theorem follow_new_root {p : List Nat} {t : Nat} (hp : follow w.tables u p = some t) :
    (p = [] ∧ t = u) ∨ (p = [511] ∧ t = u') ∨
      ∃ q, p = 511 :: 511 :: q ∧ follow w.tables S q = some t := by
  rcases p with _ | ⟨i, p⟩
  · exact .inl ⟨rfl, (Option.some.inj hp).symm⟩
  rw [follow_cons hn] at hp
  obtain ⟨x, hx, hp1⟩ := of_bind hp
  obtain ⟨rfl, hxu⟩ := oneSlot_next.mp hx
  rw [hxu] at hp1
  rcases p with _ | ⟨i, p⟩
  · exact .inr (.inl ⟨rfl, (Option.some.inj hp1).symm⟩)
  rw [follow_cons hn'] at hp1
  obtain ⟨y, hy, hp2⟩ := of_bind hp1
  obtain ⟨rfl, hys⟩ := oneSlot_next.mp hy
  rw [hys] at hp2
  exact .inr (.inr ⟨p, rfl, hp2⟩)

theorem follow_new_root_shared (q : List Nat) :
    follow w.tables u (511 :: 511 :: q) = follow w.tables S q := by
  rw [follow_cons hn, oneSlot_next.mpr ⟨rfl, rfl⟩, bind_some, follow_cons hn',
    oneSlot_next.mpr ⟨rfl, rfl⟩, bind_some]

include h

theorem follow_kernel_shared {r : Nat} (hr : R r) (q : List Nat) :
    follow w.tables r (511 :: 511 :: q) = follow w.tables u (511 :: 511 :: q) := by
  rw [follow_new_root_shared hn hn', ← List.singleton_append,
    ← List.singleton_append (l := q), ← append_assoc, follow_append]
  show (follow w.tables r [511, 511]).bind _ = _
  rw [h.rootShares hr, bind_some]

/-- The new directory is as good as the others. -/
theorem Sound.addRoot (hu : Unreached R w u) (hu' : Unreached R w u') (hne : u ≠ u') :
    Sound w (fun r => R r ∨ r = u) S := by
  have hk := h.kernel
  have hcases := fun {p t} => follow_new_root hn hn' (p := p) (t := t)
  have hshared := fun q => follow_kernel_shared h hn hn' hk q
  -- what the new root shares, the kernel's root leads to as well
  have hkernel : ∀ {q t}, follow w.tables S q = some t →
      follow w.tables w.kernel.root (511 :: 511 :: q) = some t := by
    intro q t hq
    rw [hshared, follow_new_root_shared hn hn', hq]
  have hlabel : ∀ (r r' : Nat) (q : List Nat),
      labelOf r (511 :: 511 :: q) = labelOf r' (511 :: 511 :: q) := by
    intro r r' q
    have hpre : [511, 511] <+: 511 :: 511 :: q := ⟨q, rfl⟩
    refine Prod.ext ?_ ?_
    · rw [labelOf_owner, labelOf_owner, if_pos hpre, if_pos hpre]
    · rw [labelOf_path, labelOf_path]
  -- a table has one label below the new root and the others together
  have hmixed : ∀ {r p p' t}, R r → follow w.tables r p = some t →
      follow w.tables u p' = some t → labelOf r p = labelOf u p' := by
    intro r p p' t hr hp hp'
    rcases hcases hp' with ⟨-, rfl⟩ | ⟨-, rfl⟩ | ⟨q, rfl, hq⟩
    · exact absurd hp (hu hr)
    · exact absurd hp (hu' hr)
    · rw [h.label hr hk hp (hkernel hq)]
      exact hlabel _ _ q
  refine ⟨.inl hk, ?_, ?_, ?_, ?_, ?_, h.block, h.poolBlock, h.poolNodup⟩
  · rintro r (hr | rfl)
    · exact h.rootShares hr
    · exact follow_new_root_shared hn hn' []
  · rintro r p t (hr | rfl) hp
    · exact h.live hr hp
    · rcases hcases hp with ⟨-, rfl⟩ | ⟨-, rfl⟩ | ⟨q, -, hq⟩
      · rw [hn]
        rfl
      · rw [hn']
        rfl
      · exact h.live hk (hkernel hq)
  · rintro r r' p p' t (hr | rfl) (hr' | rfl) hp hp'
    · exact h.label hr hr' hp hp'
    · exact hmixed hr hp hp'
    · exact (hmixed hr' hp' hp).symm
    · rcases hcases hp with ⟨rfl, rfl⟩ | ⟨rfl, rfl⟩ | ⟨q, rfl, hq⟩
      · rcases hcases hp' with ⟨rfl, -⟩ | ⟨-, hc⟩ | ⟨q', -, hq'⟩
        · rfl
        · exact absurd hc hne
        · exact absurd (hkernel hq') (hu hk)
      · rcases hcases hp' with ⟨-, hc⟩ | ⟨rfl, -⟩ | ⟨q', -, hq'⟩
        · exact absurd hc.symm hne
        · rfl
        · exact absurd (hkernel hq') (hu' hk)
      · have hlab := hmixed hk (hkernel hq) hp'
        exact (hlabel _ _ q).trans hlab
  · rintro r p t (hr | rfl) hp
    · exact h.depth hr hp
    · rcases hcases hp with ⟨rfl, -⟩ | ⟨rfl, -⟩ | ⟨q, rfl, hq⟩
      · simp
      · simp
      · exact h.depth hk (hkernel hq)
  · rintro r p t m i (hr | rfl) hp hm hlen hnone
    · exact h.absent hr hp hm hlen hnone
    · rcases hcases hp with ⟨-, rfl⟩ | ⟨-, rfl⟩ | ⟨q, rfl, hq⟩
      · rw [hn] at hm
        cases hm
        exact oneSlot_absent hnone
      · rw [hn'] at hm
        cases hm
        exact oneSlot_absent hnone
      · exact h.absent hk (hkernel hq) hm hlen hnone

theorem pte_new_root (v : VAddr) :
    pte w u v = if Shared v then pte w w.kernel.root v else .zero := by
  by_cases hs : Shared v
  · have hp : path v = 511 :: 511 :: [index 1 v] := by rw [path, hs.1, hs.2]
    rw [if_pos hs, pte, pte, leaf, leaf, hp, follow_kernel_shared h hn hn' h.kernel]
  · rw [if_neg hs]
    cases hf : follow w.tables u (path v) with
    | none => exact pte_of_none hf
    | some t =>
      rcases follow_new_root hn hn' hf with ⟨hp, -⟩ | ⟨hp, -⟩ | ⟨q, hp, -⟩
      · cases congrArg List.length hp
      · cases congrArg List.length hp
      · have h3 : index 3 v = 511 := (List.cons.inj hp).1
        have h2 : index 2 v = 511 := (List.cons.inj (List.cons.inj hp).2).1
        exact absurd ⟨h3, h2⟩ hs

end Root

/-! ## `mapKernel` -/

/-- What a new directory is, and what building it leaves alone. -/
structure MapsKernel (R : Nat → Prop) (S : Nat) (w w' : World) (u : Nat) : Prop where
  sound : Sound w' (fun r => R r ∨ r = u) S
  ext : Extends R w w'
  grown : Grown R w w'
  new : w.tables u = none
  /-- It has nothing of its own but two tables. -/
  below : ∃ u', ∀ {q t}, follow w'.tables u q = some t →
    (q = [] ∧ t = u) ∨ (q = [511] ∧ t = u') ∨ [511, 511] <+: q
  view : ∀ v, pte w' u v = if Shared v then pte w' w'.kernel.root v else .zero
  stray : ∀ {b}, Stray (fun r => R r ∨ r = u) w' b → Stray R w b
  backed : Backed w → Backed w'

/-- The table that both indices 511 lead to is below the one that the first leads to. -/
theorem Sound.shared_parent (h : Sound w R S) {r : Nat} (hr : R r) :
    ∃ t n, follow w.tables r [511] = some t ∧ w.tables t = some n ∧ n.next 511 = some S := by
  have hf := h.rootShares hr
  rw [show ([511, 511] : List Nat) = [511] ++ [511] from rfl, follow_append] at hf
  obtain ⟨t, ht, hf⟩ := of_bind hf
  obtain ⟨n, hn⟩ := isSome_iff_exists.mp (h.live hr ht)
  refine ⟨t, n, ht, hn, ?_⟩
  rw [follow_cons hn] at hf
  obtain ⟨x, hx, hf⟩ := of_bind hf
  rw [hx, ← hf]
  rfl

/-- Two tables with a slot each, the second of which leads to the shared table. -/
def World.newRoot (w : World) (u u' S : Nat) (e e' : Entry) : World :=
  let T := update w.tables u' (some (oneSlot 511 e' S))
  { w with tables := update T u (some (oneSlot 511 e u')) }

section NewRoot

variable {u u' x : Nat} {e e' : Entry}

theorem newRoot_root : (w.newRoot u u' S e e').tables u = some (oneSlot 511 e u') :=
  update_self ..

theorem newRoot_second (h : u' ≠ u) :
    (w.newRoot u u' S e e').tables u' = some (oneSlot 511 e' S) :=
  (update_of_ne h ..).trans (update_self ..)

theorem newRoot_of_ne (h : x ≠ u) (h' : x ≠ u') :
    (w.newRoot u u' S e e').tables x = w.tables x :=
  (update_of_ne h ..).trans (update_of_ne h' ..)

variable (h : Sound w R S) (hu : Unreached R w u) (hlive : (w.tables u).isSome)
  (hu' : Fresh w u')
include h hu hu'

/-- For the other directories nothing has changed. -/
theorem follow_newRoot {r : Nat} (hr : R r) (q : List Nat) :
    follow (w.newRoot u u' S e e').tables r q = follow w.tables r q := by
  have hsecond : ∀ q, follow (update w.tables u' (some (oneSlot 511 e' S))) r q
      = follow w.tables r q := fun q => follow_update fun q => hu'.unreached h hr
  rw [← hsecond]
  refine follow_update fun q hq => hu hr (q := q) ?_
  rw [← hsecond, hq]

theorem pte_newRoot {r : Nat} (hr : R r) (v : VAddr) :
    pte (w.newRoot u u' S e e') r v = pte w r v := by
  rw [pte, pte, leaf, leaf, follow_newRoot h hu hu' hr]
  cases hf : follow w.tables r (path v) with
  | none => rfl
  | some t =>
    have htu : t ≠ u := fun hc => hu hr (hc ▸ hf)
    rw [bind_some, bind_some, newRoot_of_ne htu (hu'.ne (h.live hr hf))]

include hlive

theorem Sound.newRoot : Sound (w.newRoot u u' S e e') R S := by
  have h1 := h.update_unreached (some (oneSlot 511 e' S)) (hu'.unreached h) (fun _ => hu'.used)
    hu'.noPool
  refine h1.update_unreached (some (oneSlot 511 e u')) ?_ (fun _ => h.block hlive) ?_
  · intro r q hr hq
    refine hu hr (q := q) ?_
    rw [← hq]
    exact (follow_update fun q => hu'.unreached h hr).symm
  · intro b hb hbu
    have hnone := (h.poolBlock hb).2
    rw [hbu] at hnone
    rw [hnone] at hlive
    cases hlive

end NewRoot

theorem getEntryCreate_blank {alloc : World → Option (World × Nat × Nat)} {init : Entry → Entry}
    {stop t' i' : Nat} {v : VAddr} (ht : w.tables t = some (Node.blank .zero))
    (hwalk : getEntryCreate alloc init stop 1 w t v = some (w', t', i')) :
    ∃ (w₁ : World) (phys : Nat) (e : Entry), alloc w = some (w₁, t', phys) ∧
      w' = w₁.link t (index (stop + 1) v) t' (init (e.present phys)) ∧ i' = index stop v := by
  simp only [getEntryCreate, ht, bind_eq_bind, bind_some, Node.blank] at hwalk
  obtain ⟨-, hwalk⟩ := of_assert hwalk
  obtain ⟨⟨w₁, u, phys⟩, ha, hwalk⟩ := of_bind hwalk
  obtain ⟨e, -, hwalk⟩ := of_bind hwalk
  cases hwalk
  exact ⟨w₁, phys, e, ha, rfl, rfl⟩

/-- The entries of a new directory: `e` of its root, and `e'` of the table below, which is the one
that the kernel's directory has there. -/
structure RootEntries (w : World) (S : Nat) (pd : PageDirectory) (phys phys' : Nat)
    (e e' : Entry) : Prop where
  base : pd.base = phys / PAGE_SIZE % 2 ^ 40
  p : e.p = true
  table : e.base = phys' / PAGE_SIZE % 2 ^ 40
  copied : ∃ t n, follow w.tables w.kernel.root [511] = some t ∧ w.tables t = some n ∧
    n.next 511 = some S ∧ e' = n.entries 511

/-- A blank table in block `u`. -/
def World.blanked (w : World) (u : Nat) : World :=
  { w with tables := update w.tables u (some (Node.blank .zero)) }

theorem blanked_self (w : World) (u : Nat) :
    (w.blanked u).tables u = some (Node.blank .zero) := update_self ..

theorem Fresh.blanked {u : Nat} (hu : Fresh w u) (h : Sound w R S) :
    Sound (w.blanked u) R S ∧ Unreached R (w.blanked u) u := by
  have hfar := hu.unreached h
  refine ⟨h.update_unreached _ hfar (fun _ => hu.used) hu.noPool, fun r q hr hq => ?_⟩
  exact hfar hr ((follow_new hu.noTable).symm.trans hq)

theorem Sound.getEntry_kernel {t : Nat} (h : Sound w R S)
    (ht : follow w.tables w.kernel.root [511] = some t) :
    getEntry w.tables 2 1 w.kernel.root kernelVBase = some (some (t, 511)) := by
  rw [h.getEntry_eq (q := []) kernelVBase h.kernel rfl (by decide)]
  show some ((follow w.tables w.kernel.root [511]).map _) = _
  rw [ht]
  rfl

/-- The steps of `mapKernel`: two blocks, and a table in each. -/
theorem mapKernel_cases (h : Sound w R S) (hm : mapKernel w = some (w', pd)) :
    ∃ w₁ phys w3 u' phys' e e', allocBlock w = some (w₁, pd.root, phys) ∧
      allocBlock (w₁.blanked pd.root) = some (w3, u', phys') ∧
      w' = w3.newRoot pd.root u' S e e' ∧ RootEntries w3 S pd phys phys' e e' := by
  obtain ⟨⟨w2, pd'⟩, hcreate, hm⟩ := of_bind hm
  obtain ⟨⟨w₁, u, phys⟩, ha, heq⟩ := of_bind hcreate
  obtain ⟨rfl, rfl⟩ := heq
  rw [← World.blanked] at hm
  obtain ⟨w5, hto, hm⟩ := of_bind hm
  obtain ⟨e0, he0, hm⟩ := of_bind hm
  cases hm
  have halloc := allocBlock_spec h ha
  obtain ⟨h2, hfar2⟩ := halloc.block.blanked halloc.sound
  have hu2 := blanked_self w₁ u
  -- what the kernel's directory has there
  obtain ⟨t, n, ht, hn, hnext⟩ := h2.shared_parent h2.kernel
  rw [mapTo2, h2.getEntry_kernel ht] at hto
  simp only [bind_eq_bind, bind_some] at hto
  obtain ⟨⟨w4, u', i'⟩, hwalk, hto⟩ := of_bind hto
  obtain ⟨w3, phys', e1, ha', rfl, rfl⟩ := getEntryCreate_blank hu2 hwalk
  have halloc' := allocBlock_spec h2 ha'
  have hu3 : w3.tables u = some (Node.blank .zero) := by
    rw [halloc'.ext.foreign (by rw [hu2]; rfl) (fun hr => hfar2 hr), hu2]
  have hne : u ≠ u' := halloc'.block.ne (by rw [hu3]; rfl)
  obtain ⟨n3, hold3, hnext3⟩ := halloc'.ext.node hn
  have hnext3 : n3.next 511 = some S := hnext3 hnext
  obtain ⟨e2, he2⟩ : ∃ e2, e2 = setAttributes ATTR_RW (e1.present phys') := ⟨_, rfl⟩
  rw [← he2] at hto
  have hn3 : (w3.link u 511 u' e2).tables t = some n3 := by
    have htu : t ≠ u := by
      rintro rfl
      exact hfar2 h2.kernel ht
    have htu' : t ≠ u' := halloc'.block.ne (by rw [hold3]; rfl)
    rw [link_of_ne htu htu', hold3]
  have hidx3 : index (2 + 1) kernelVBase = 511 := by decide
  simp only [hidx3, hn3, link_new hne.symm, bind_some, hnext3,
    Option.some.injEq] at hto
  have hroot : w5.tables u = some (oneSlot 511 e2 u') := by
    rw [← hto]
    exact (update_of_ne hne ..).trans (link_at hne.symm hu3)
  have he0 : e0 = e2 := by
    have he0 : some (update (fun _ => Entry.zero) 511 e2 511) = some e0 := by
      rw [← he0, World.entry, hroot]
      rfl
    exact (Option.some.inj he0).symm
  refine ⟨w₁, phys, w3, u', phys', { e0 with us := true }, n3.entries 511, ha,
    ha', ?_, rfl, ?_, ?_, t, n3, ?_, hold3, hnext3, rfl⟩
  rotate_left
  · rw [he0, he2]
    rfl
  · rw [he0, he2]
    rfl
  · rw [halloc'.ext.kernel]
    exact halloc'.ext.follow_eq ht
  -- the link and the two later writes, table by table
  have htables : (w5.setEntry u 511 { e0 with us := true }).tables
      = (w3.newRoot u u' S { e0 with us := true } (n3.entries 511)).tables := by
    funext x
    by_cases hx : x = u
    · subst hx
      rw [setEntry_tables, setEntry_self hroot, newRoot_root]
      simp [oneSlot]
    · rw [setEntry_tables, setEntry_of_ne hx, ← hto]
      by_cases hx' : x = u'
      · subst hx'
        rw [newRoot_second hx]
        exact update_self ..
      · rw [newRoot_of_ne hx hx']
        exact (update_of_ne hx' ..).trans (link_of_ne hx hx')
  rw [← hto] at htables ⊢
  simp only [World.setEntry, World.newRoot, World.link, World.mk.injEq, and_true]
  exact htables

theorem Allocated.blank {u : Nat} (ha : Allocated R S w w₁ u) :
    Sound (w₁.blanked u) R S ∧ Extends R w (w₁.blanked u) ∧ Grown R w (w₁.blanked u) ∧
      Unreached R (w₁.blanked u) u ∧
      (∀ {b}, Stray R (w₁.blanked u) b → Stray R w b ∨ b = u) ∧
      (Backed w → Backed (w₁.blanked u)) := by
  obtain ⟨h2, hfar⟩ := ha.block.blanked ha.sound
  have hfollow : ∀ {r q}, follow (w₁.blanked u).tables r q = follow w₁.tables r q :=
    follow_new ha.block.noTable
  have hpte : ∀ r v, pte (w₁.blanked u) r v = pte w₁ r v := fun _ _ => leaf_new ha.block.noTable
  have hsteps : HeapSteps R w₁ (w₁.blanked u) := .quiet (fun v _ => hpte _ v) rfl le_rfl rfl
  refine ⟨h2, ?_, ⟨ha.grown.steps.trans hsteps, ha.grown.allocating, ha.grown.stackHeap, ?_, ?_⟩,
    hfar, ?_, ?_⟩
  · refine ha.ext.of_new (fun ht => ?_) (fun _ => hfollow) rfl rfl
    exact update_of_ne (ha.block.ne (ha.ext.live ht)) ..
  · intro x hx
    have hx1 := ha.grown.fresh hx
    exact ⟨(update_of_ne (ha.new hx) ..).trans hx1.noTable, hx1.used, hx1.noPool⟩
  · intro r v hr
    rw [hpte]
    exact ha.grown.user v hr
  · intro b hb
    exact ha.stray ⟨hb.used, hb.noPool, fun hr hq => hb.unreached hr (hfollow.trans hq)⟩
  · intro hback
    refine ⟨(ha.backed hback).room, fun {b n} hb hn hmap => ?_⟩
    rw [hpte]
    exact (ha.backed hback).page hb hn hmap

/-- The second block of a new directory is another one. -/
theorem Allocated.second {u u' : Nat} {w3 : World} (ha : Allocated R S w w₁ u)
    (ha' : Allocated R S (w₁.blanked u) w3 u') :
    u ≠ u' ∧ (w3.tables u).isSome ∧ Unreached R w3 u := by
  have hu : ((w₁.blanked u).tables u).isSome := by
    rw [blanked_self]
    rfl
  obtain ⟨-, hfar⟩ := ha.block.blanked ha.sound
  exact ⟨ha'.block.ne (ha'.ext.live hu), ha'.ext.live hu,
    fun r q hr hq => hfar hr (ha'.ext.before hr hu hq)⟩

/-- `mapKernel` builds a directory that shares the kernel's part and has nothing else. -/
theorem mapKernel_spec (h : Sound w R S) (hm : mapKernel w = some (w', pd)) :
    MapsKernel R S w w' pd.root := by
  obtain ⟨w₁, phys, w3, u', phys', e, e', ha, ha', hw', -⟩ := mapKernel_cases h hm
  obtain ⟨u, base⟩ := pd
  have halloc := allocBlock_spec h ha
  obtain ⟨h2, hext2, hgrown2, -, hstray2, hback2⟩ := halloc.blank
  have halloc' := allocBlock_spec h2 ha'
  obtain ⟨hne, hlive3, hfar3⟩ := halloc.second halloc'
  have hext3 := hext2.trans halloc'.ext
  have hfollow : ∀ {r}, R r → ∀ q, follow w'.tables r q = follow w3.tables r q := by
    rw [hw']
    exact follow_newRoot halloc'.sound hfar3 halloc'.block
  have hpte : ∀ {r}, R r → ∀ v, pte w' r v = pte w3 r v := by
    rw [hw']
    exact pte_newRoot halloc'.sound hfar3 halloc'.block
  have h' : Sound w' R S := by
    rw [hw']
    exact halloc'.sound.newRoot hfar3 hlive3 halloc'.block
  have hn : w'.tables u = some (oneSlot 511 e u') := by
    rw [hw']
    exact newRoot_root
  have hn' : w'.tables u' = some (oneSlot 511 e' S) := by
    rw [hw']
    exact newRoot_second hne.symm
  have hfar' : Unreached R w' u := fun r q hr hq => hfar3 hr ((hfollow hr q).symm.trans hq)
  have hfar'' : Unreached R w' u' :=
    fun r q hr hq => halloc'.block.unreached halloc'.sound hr ((hfollow hr q).symm.trans hq)
  have hbelow := fun {q t} => follow_new_root hn hn' (p := q) (t := t)
  refine ⟨h'.addRoot hn hn' hfar' hfar'' hne, ?_, ?_, ?_, ⟨u', ?_⟩, pte_new_root h' hn hn', ?_, ?_⟩
  · refine hext3.of_new ?_ (fun hr => hfollow hr _) (by rw [hw']; rfl) (by rw [hw']; rfl)
    intro t ht
    rw [hw']
    refine newRoot_of_ne ?_ (halloc'.block.ne (hext3.live ht))
    exact halloc.block.ne (halloc.ext.live ht)
  · refine ⟨(hgrown2.trans halloc'.grown).steps.trans ?_, ?_, ?_, ?_, ?_⟩
    · refine HeapSteps.quiet (fun v hr => hpte hr v) ?_ ?_ ?_ <;> rw [hw'] <;> rfl
    · rw [hw']
      exact (hgrown2.trans halloc'.grown).allocating
    · rw [hw']
      exact (hgrown2.trans halloc'.grown).stackHeap
    · intro x hx
      have hx2 := hgrown2.fresh hx
      have hx3 := halloc'.grown.fresh hx2
      rw [hw']
      exact ⟨(newRoot_of_ne (halloc.new hx) (halloc'.new hx2)).trans hx3.noTable, hx3.used,
        hx3.noPool⟩
    · intro r v hr
      rw [hpte hr]
      exact (hgrown2.trans halloc'.grown).user v hr
  · rcases hc : w.tables u with _ | n
    · rfl
    · exact absurd rfl (halloc.block.ne (halloc.ext.live (by rw [hc]; rfl)))
  · intro q t hq
    rcases hbelow hq with hq | hq | ⟨q', rfl, -⟩
    · exact .inl hq
    · exact .inr (.inl hq)
    · exact .inr (.inr ⟨q', rfl⟩)
  · intro b hb
    have hb3 : Stray R w3 b := by
      refine ⟨?_, ?_, fun hr hq => hb.unreached (.inl hr) ((hfollow hr _).trans hq)⟩
      · have hused := hb.used
        rw [hw'] at hused
        exact hused
      · have hpool := hb.noPool
        rw [hw'] at hpool
        exact hpool
    rcases halloc'.stray hb3 with hb2 | rfl
    · rcases hstray2 hb2 with hb1 | rfl
      · exact hb1
      · exact absurd rfl (hb.unreached (q := []) (.inr rfl))
    · -- the second table is below the new root
      refine absurd ?_ (hb.unreached (q := [511]) (.inr rfl))
      rw [follow_cons hn]
      rfl
  · intro hback
    have hback3 := halloc'.backed (hback2 hback)
    refine ⟨by rw [hw']; exact hback3.room, fun {b n} hb hn hmap => ?_⟩
    rw [hpte h'.kernel]
    rw [hw'] at hmap ⊢
    exact hback3.page hb hn hmap

/-! ## Any number of processes -/

namespace Sharing

/-- The directories there are, besides the kernel's. -/
structure State where
  world : World
  dirs : List Nat

inductive Act where
  | mapKernel
  | call (r : Nat) (op : Directory.Op)

def State.isDir (s : State) (r : Nat) : Prop := r = s.world.kernel.root ∨ r ∈ s.dirs

instance (s : State) (r : Nat) : Decidable (s.isDir r) := inferInstanceAs (Decidable (_ ∨ _))

def step (s : State) : Act → Option State
  | .mapKernel => do
      let (w, pd) ← Paging.mapKernel s.world
      some ⟨w, pd.root :: s.dirs⟩
  | .call r op => do
      assert (s.isDir r)
      let (w, _) ← Directory.act r s.world op
      some { s with world := w }

/-- Operations are called with canonical addresses. -/
def Act.Canonical : Act → Prop
  | .mapKernel => True
  | .call _ op => Paging.Canonical op.addr

instance : (a : Act) → Decidable a.Canonical
  | .mapKernel => inferInstanceAs (Decidable True)
  | .call _ op => inferInstanceAs (Decidable (Paging.Canonical op.addr))

/-- The tables are sound, with all the directories there are. -/
structure Inv (S : Nat) (s : State) : Prop where
  sound : Sound s.world s.isDir S

theorem Inv.step {s s' : State} {a : Act} (h : Inv S s) (hs : step s a = some s') : Inv S s' := by
  cases a with
  | mapKernel =>
    obtain ⟨⟨w', pd⟩, hm, hs⟩ := of_bind hs
    cases hs
    have hspec := mapKernel_spec h.sound hm
    refine ⟨hspec.sound.mono ?_ (.inl rfl)⟩
    rintro r (hr | hr)
    · exact .inl (.inl (hr.trans (by rw [hspec.ext.kernel])))
    · rcases mem_cons.mp hr with rfl | hr
      · exact .inr rfl
      · exact .inl (.inr hr)
  | call r op =>
    obtain ⟨hr, hs⟩ := of_assert hs
    obtain ⟨⟨w', answer⟩, ha, hs⟩ := of_bind hs
    cases hs
    have href := Directory.act_refines h.sound hr ha
    refine ⟨href.sound.mono ?_ (.inl rfl)⟩
    rintro r' (hr' | hr')
    · exact .inl (hr'.trans (by rw [href.kernel]))
    · exact .inr hr'

/-- Addresses from `0xffffffffc0000000` on are shared, -/
theorem shared_of_le {v : VAddr} (hv : 0xffffffffc0000000 ≤ v.toNat) : Shared v := by
  simp only [Shared, index]
  omega

theorem not_shared_of_lt {v : VAddr} (hc : Paging.Canonical v)
    (hv : v.toNat < 0xffffffffc0000000) : ¬ Shared v := by
  simp only [Shared, index, Paging.Canonical] at *
  omega

/-- **Kernel space is shared and user space is isolated.** Whatever is mapped or unmapped through
whichever directory, `resolve` gives the same for the kernel's addresses in all of them. An
operation of a process below them changes what `resolve` gives in no other directory, but for the
pages of the page heap's own blocks. -/
theorem kernel_shared_user_isolated {w₀ : World} (h₀ : Sound w₀ (· = w₀.kernel.root) S) {s : State}
    (hreach : Reach step (fun _ a => a.Canonical) ⟨w₀, []⟩ s) :
    (∀ d ∈ s.dirs, ∀ v : VAddr, 0xffffffffc0000000 ≤ v.toNat →
      ∃ a, resolve s.world d v = some a ∧ resolve s.world s.world.kernel.root v = some a) ∧
    ∀ d ∈ s.dirs, ∀ op w' answer, Paging.Canonical op.addr → op.addr.toNat < 0xffffffffc0000000 →
      Directory.act d s.world op = some (w', answer) →
      ∀ r, s.isDir r → r ≠ d → ∀ v, ¬ HeapPage w' r v →
        resolve w' r v = resolve s.world r v := by
  have hinv : Inv S s := by
    refine hreach.invariant ⟨h₀.mono ?_ (.inl rfl)⟩ fun s a s' hI _ hs => hI.step hs
    rintro r (hr | hr)
    · exact hr
    · cases hr
  refine ⟨?_, ?_⟩
  · intro d hd v hv
    have hslot : slotOf d v = slotOf s.world.kernel.root v :=
      slotOf_eq_iff.mpr ⟨⟨rfl, rfl⟩, .inr (shared_of_le hv)⟩
    refine ⟨_, hinv.sound.resolve_eq (.inr hd) v, ?_⟩
    rw [hinv.sound.resolve_eq (.inl rfl), hinv.sound.pte_of_slot (.inr hd) (.inl rfl) hslot]
  · intro d hd op w' answer hop hlow ha r hr hne v hheap
    have href := Directory.act_refines hinv.sound (.inr hd) ha
    have hslot : slotOf r v ≠ slotOf d op.addr := by
      intro hc
      obtain ⟨⟨hp, -⟩, hrd | hs⟩ := slotOf_eq_iff.mp hc
      · exact hne hrd
      · refine not_shared_of_lt hop hlow ?_
        simp only [path, List.cons.injEq] at hp
        rw [Shared, ← hp.1, ← hp.2.1]
        exact hs
    rw [href.sound.resolve_eq hr, hinv.sound.resolve_eq hr, href.others hr hheap hslot]

/-- The small kernel with two processes, one of which has a page. -/
def twoProcesses : List Act :=
  [.mapKernel, .mapKernel, .call 20 (.mapPageTo 0x400000 0x1000 7)]

theorem kernel_shared_user_isolated_twoProcesses :
    ∃ s, guardedRun step (fun _ a => a.Canonical) ⟨smallKernel, []⟩ twoProcesses = some s ∧
      s.dirs = [22, 20] ∧
      ∀ d ∈ s.dirs, ∀ v : VAddr, 0xffffffffc0000000 ≤ v.toNat →
        ∃ a, resolve s.world d v = some a ∧ resolve s.world s.world.kernel.root v = some a := by
  have hrun : (guardedRun step (fun _ a => a.Canonical) ⟨smallKernel, []⟩ twoProcesses).map
      State.dirs = some [22, 20] := by decide +kernel
  obtain ⟨s, hs, hdirs⟩ := map_eq_some_iff.mp hrun
  exact ⟨s, hs, hdirs,
    (kernel_shared_user_isolated smallKernel_sound (Reach.of_guardedRun hs)).1⟩

/-- **Mapping a page of one process changes a page of the other**: the tables it needs are in
blocks of the page heap, which are mapped for all. -/
theorem mapping_changes_other_directory :
    ∃ s w' answer, guardedRun step (fun _ a => a.Canonical) ⟨smallKernel, []⟩
        [.mapKernel, .mapKernel] = some s ∧ s.dirs = [22, 20] ∧
      Directory.act 20 s.world (.mapPageTo 0x400000 0x1000 7) = some (w', answer) ∧
      resolve s.world 22 0xffffffffe0030000 = some INVALID_PHYS ∧
      resolve w' 22 0xffffffffe0030000 = some (0x30 * PAGE_SIZE) := by
  have hrun : (guardedRun step (fun _ a => a.Canonical) ⟨smallKernel, []⟩
      [.mapKernel, .mapKernel]).bind (fun s =>
        (Directory.act 20 s.world (.mapPageTo 0x400000 0x1000 7)).bind fun x =>
          (resolve s.world 22 0xffffffffe0030000).bind fun a =>
            (resolve x.1 22 0xffffffffe0030000).map fun b => (s.dirs, a, b))
      = some ([22, 20], INVALID_PHYS, 0x30 * PAGE_SIZE) := by decide +kernel
  obtain ⟨s, hs, hrun⟩ := bind_eq_some_iff.mp hrun
  obtain ⟨⟨w', answer⟩, ha, hrun⟩ := bind_eq_some_iff.mp hrun
  obtain ⟨a, hbefore, hrun⟩ := bind_eq_some_iff.mp hrun
  obtain ⟨b, hafter, heq⟩ := map_eq_some_iff.mp hrun
  simp only [Prod.mk.injEq] at heq
  obtain ⟨hdirs, rfl, rfl⟩ := heq
  exact ⟨s, w', answer, hs, hdirs, ha, hbefore, hafter⟩

end Sharing

end Flix.Paging

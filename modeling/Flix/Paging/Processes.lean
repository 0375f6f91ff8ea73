import Flix.Paging.Cloning
import Flix.Paging.Teardown

/-!
# Whose frame it is, in every run

The kernel and its processes as far as memory goes: directories come from `mapKernel`
and `clone` and go with `release`, pages are mapped, deferred and faulted in, and blocks
and stacks come from the two page heaps and go back. A task that exits leaves its memory
to whoever waits for it, and then its stack, its pages and its directory go, in this
order.

The frames have contents here, which only `clone` and the processes themselves change.

The bitmap of the frames is a vector on the kernel heap, which ends where the addresses
do. A step that needs a longer one does not return, so there are never more frames than
an entry can name.
-/

namespace Flix.Paging.Processes

open Function Radix Runs Traced

structure State (C : Type) where
  world : World
  /-- What is in the frames. -/
  mem : Nat → C
  /-- The roots of the processes' directories. -/
  dirs : List Nat
  /-- Blocks of the page heap that somebody has asked for. -/
  blocks : List Nat

inductive Act (C : Type) where
  /-- `newKernelTask` and `newUserTask`. -/
  | mapKernel
  /-- Also what `KHeap::enlargeHeap` does, on the kernel directory. -/
  | mapPage (r : Nat) (v : VAddr) (attr : Nat)
  | handleFault (r : Nat) (v : VAddr)
  | clone (r : Nat)
  | unmapUserSpace (r : Nat)
  | release (r : Nat)
  | kmalloc
  | kfree (b : Nat)
  | stackKmalloc
  | stackKfree (i : Nat)
  /-- A process writes to its memory. -/
  | store (r : Nat) (v : VAddr) (x : C)

variable {C : Type} {S : Nat} {s s' : State C}

/-- The directories in use. -/
def State.isDir (s : State C) (r : Nat) : Prop := r = s.world.kernel.root ∨ r ∈ s.dirs

instance (s : State C) (r : Nat) : Decidable (s.isDir r) := inferInstanceAs (Decidable (_ ∨ _))

/-- What a process sees at an address. -/
def State.read (s : State C) (r : Nat) (v : VAddr) : Option C := do
  let a ← ← getPhysicalAddress s.world r v
  some (s.mem (a / PAGE_SIZE))

/-- What is done in a step, with the calls that give something back. -/
def act (s : State C) : Act C → Traced Call (State C)
  | .mapKernel => do
      let (w, pd) ← Paging.mapKernel s.world
      pure { s with world := w, dirs := pd.root :: s.dirs }
  | .mapPage r v attr => do
      let (w, _) ← Paging.mapPage s.world r v attr
      pure { s with world := w }
  | .handleFault r v => do
      let (w, _) ← Paging.handleFault s.world r v
      pure { s with world := w }
  | .clone r => do
      let ((w, mem), pd, _) ← Paging.clone (s.world, s.mem) r
      pure { s with world := w, mem := mem, dirs := pd.root :: s.dirs }
  | .unmapUserSpace r => do
      let (w, pd) ← Paging.unmapUserSpace s.world r
      pure { s with world := w, dirs := pd.root :: s.dirs.erase r }
  | .release r => do
      let w ← Paging.release s.world r
      pure { s with world := w, dirs := s.dirs.erase r }
  | .kmalloc => do
      let (w, b, _) ← allocBlock s.world
      pure { s with world := w, blocks := b :: s.blocks }
  | .kfree b => do
      let w ← Paging.kfree s.world b
      pure { s with world := w, blocks := s.blocks.erase b }
  | .stackKmalloc => do
      let (w, _) ← Paging.stackKmalloc s.world
      pure { s with world := w }
  | .stackKfree i => do
      let w ← Paging.stackKfree s.world i
      pure { s with world := w }
  | .store r v x => do
      let physaddr ← getPhysicalAddress s.world r v
      let a ← physaddr
      pure { s with mem := update s.mem (a / PAGE_SIZE) x }

def step (s : State C) (a : Act C) : Option (State C) := do
  let s' ← (act s a).result
  assert s'.world.Fits
  some s'

theorem step_eq_some_iff {a : Act C} :
    step s a = some s' ↔ (act s a).result = some s' ∧ s'.world.Fits := by
  constructor
  · intro h
    obtain ⟨s₁, hact, h⟩ := of_bind h
    obtain ⟨hfits, h⟩ := of_assert h
    cases h
    exact ⟨hact, hfits⟩
  · rintro ⟨hact, hfits⟩
    rw [step, hact, bind_eq_bind, bind_some, assert_pos hfits]
    rfl

/-- Who is asked for something has to be there. -/
def Guard (s : State C) : Act C → Prop
  | .mapPage r _ _ | .handleFault r _ | .store r _ _ => s.isDir r
  | .clone r | .unmapUserSpace r | .release r => r ∈ s.dirs
  | .kfree b => b ∈ s.blocks
  | .mapKernel | .kmalloc | .stackKmalloc | .stackKfree _ => True

instance (s : State C) : (a : Act C) → Decidable (Guard s a)
  | .mapPage r _ _ | .handleFault r _ | .store r _ _ => inferInstanceAs (Decidable (s.isDir r))
  | .clone r | .unmapUserSpace r | .release r => inferInstanceAs (Decidable (r ∈ s.dirs))
  | .kfree b => inferInstanceAs (Decidable (b ∈ s.blocks))
  | .mapKernel | .kmalloc | .stackKmalloc | .stackKfree _ => inferInstanceAs (Decidable True)

/-- The directories that are in use while something is given back: a directory that is taken down
is not one of them, and the one that `unmapUserSpace` puts in its place is. -/
def live (s : State C) : Act C → Nat → Prop
  | .unmapUserSpace r, d =>
    (s.isDir d ∧ d ≠ r) ∨ ∃ w pd, Paging.mapKernel s.world = some (w, pd) ∧ d = pd.root
  | .release r, d => s.isDir d ∧ d ≠ r
  | _, d => s.isDir d

/-! ## The invariant -/

structure Inv (S : Nat) (s : State C) : Prop where
  sound : Sound s.world s.isDir S
  owned : Owned s.isDir s.world
  kernel : s.world.kernel.root ∉ s.dirs
  nodup : s.dirs.Nodup
  blocks : ∀ b ∈ s.blocks, Fresh s.world b
  blocksNodup : s.blocks.Nodup

variable {w : World}

theorem Inv.steady (h : Inv S s) {mem : Nat → C} (hst : Steady s.isDir S s.world w)
    (ho : Owned s.isDir w) : Inv S { s with world := w, mem := mem } := by
  have hdir : ∀ r, State.isDir { s with world := w, mem := mem } r ↔ s.isDir r := by
    intro r
    rw [State.isDir, State.isDir, hst.ext.kernel]
  obtain heq : State.isDir { s with world := w, mem := mem } = s.isDir :=
    funext fun r => propext (hdir r)
  refine ⟨?_, ?_, ?_, h.nodup, fun b hb => hst.fresh (h.blocks b hb), h.blocksNodup⟩
  · rw [heq]
    exact hst.sound
  · rw [heq]
    exact ho
  · rw [hst.ext.kernel]
    exact h.kernel

theorem Inv.addDir (h : Inv S s) {mem : Nat → C} {u : Nat}
    (hsound : Sound w (fun r => s.isDir r ∨ r = u) S) (ho : Owned (fun r => s.isDir r ∨ r = u) w)
    (hnew : s.world.tables u = none) (hk : w.kernel = s.world.kernel)
    (hfresh : ∀ {x}, Fresh s.world x → Fresh w x) :
    Inv S { s with world := w, mem := mem, dirs := u :: s.dirs } := by
  have hnot : ¬ s.isDir u := by
    intro hu
    have hlive := h.sound.rootLive hu
    rw [hnew] at hlive
    cases hlive
  have heq : State.isDir { s with world := w, mem := mem, dirs := u :: s.dirs }
      = fun r => s.isDir r ∨ r = u := by
    funext r
    simp only [State.isDir, hk, mem_cons, eq_iff_iff]
    tauto
  refine ⟨by rw [heq]; exact hsound, by rw [heq]; exact ho, ?_, ?_,
    fun b hb => hfresh (h.blocks b hb), h.blocksNodup⟩
  · rw [hk, mem_cons, not_or]
    exact ⟨fun hc => hnot (.inl hc.symm), h.kernel⟩
  · exact nodup_cons.mpr ⟨fun hc => hnot (.inr hc), h.nodup⟩

theorem Inv.dropDirs (h : Inv S s) {R : Nat → Prop} (dirs : List Nat)
    (hR : ∀ d, R d ↔ d = s.world.kernel.root ∨ d ∈ dirs) (hk : s.world.kernel.root ∉ dirs)
    (hnodup : dirs.Nodup) (hsound : Sound w R S) (ho : Owned R w)
    (hkernel : w.kernel = s.world.kernel) (hfresh : ∀ {x}, Fresh s.world x → Fresh w x) :
    Inv S { s with world := w, dirs := dirs } := by
  have heq : State.isDir { s with world := w, dirs := dirs } = R := by
    funext d
    rw [State.isDir, hkernel]
    exact (propext (hR d)).symm
  exact ⟨by rw [heq]; exact hsound, by rw [heq]; exact ho, by rw [hkernel]; exact hk, hnodup,
    fun b hb => hfresh (h.blocks b hb), h.blocksNodup⟩

/-- A table that is taken down is in no block of somebody else's. -/
theorem fresh_of_down {R : Nat → Prop} {w0 : World} {d x : Nat}
    (hd : Down R S w0 (Own w0.tables d) w)
    (h0 : Sound w0 (fun r => R r ∨ r = d) S) (hx : Fresh w0 x) : Fresh w x := by
  refine hd.torn.fresh hx ?_
  rintro ⟨p, -, hp⟩
  exact hx.ne (h0.live (.inr rfl) hp) rfl

/-! ## The steps -/

section Steps

variable {r : Nat}

theorem act_stackKfree (h : Inv S s) (i : Nat) :
    Spec False (Safe s.isDir) (Inv S) (act s (.stackKfree i)) := by
  -- what unmapping one page of the stack after the other leaves
  let I (w : World) : Prop := Sound w s.isDir S ∧ Owned s.isDir w ∧ w.kernel = s.world.kernel ∧
    ∀ x, Fresh s.world x → Fresh w x
  have hloop : Spec False (Safe s.isDir) I ((stackPages i).foldlM unmapAndFree s.world) := by
    refine Spec.foldlM (fun _ => I) ⟨h.sound, h.owned, rfl, fun _ => id⟩ ?_
    rintro w v - ⟨hw, ho, hk, hfresh⟩
    refine (unmapAndFree_spec hw ho fun ht => ht.elim).mono ?_
    rintro w' ⟨hw', ho', htorn⟩
    exact ⟨hw', ho', htorn.kernel.trans hk, fun x hx => htorn.fresh (hfresh x hx) id⟩
  have hstack : Spec False (Safe s.isDir) I (Paging.stackKfree s.world i) := by
    refine (Spec.assert fun ht => ht.elim).bind fun _ _ => hloop.bind ?_
    rintro w - ⟨hw, ho, hk, hfresh⟩
    exact .pure ⟨hw.of_tables rfl rfl rfl fun _ hx => hx,
      ho.of_view (fun v hr _ => ⟨_, hr, rfl, rfl⟩) rfl, hk,
      fun x hx => ⟨(hfresh x hx).noTable, (hfresh x hx).used, (hfresh x hx).noPool⟩⟩
  refine hstack.bind ?_
  rintro w - ⟨hw, ho, hk, hfresh⟩
  exact .pure (h.dropDirs _ (fun _ => Iff.rfl) h.kernel h.nodup hw ho hk fun hx => hfresh _ hx)

theorem act_kfree (h : Inv S s) {b : Nat} (hb : b ∈ s.blocks) :
    Spec False (Safe s.isDir) (Inv S) (act s (.kfree b)) := by
  have hfree := h.blocks b hb
  refine (kfree_spec h.sound h.owned (hfree.unreached h.sound) hfree.noPool
    fun ht => ht.elim).bind ?_
  rintro w - ⟨hw, ho, htorn⟩
  have hother : ∀ x ∈ s.blocks.erase b, Fresh w x := by
    intro x hx
    obtain ⟨hne, hx⟩ := (h.blocksNodup.mem_erase_iff).mp hx
    exact htorn.fresh (h.blocks x hx) hne
  have heq : State.isDir { s with world := w, blocks := s.blocks.erase b } = s.isDir := by
    funext d
    rw [State.isDir, State.isDir, htorn.kernel]
  exact .pure ⟨by rw [heq]; exact hw, by rw [heq]; exact ho, by rw [htorn.kernel]; exact h.kernel,
    h.nodup, hother, h.blocksNodup.erase b⟩

theorem act_release (h : Inv S s) (hr : r ∈ s.dirs) :
    Spec False (Safe (live s (.release r))) (Inv S) (act s (.release r)) := by
  have hk : live s (.release r) s.world.kernel.root :=
    ⟨.inl rfl, fun hc => h.kernel (hc ▸ hr)⟩
  have hsub : ∀ {d}, live s (.release r) d ∨ d = r → s.isDir d := by
    rintro d (hd | rfl)
    · exact hd.1
    · exact .inr hr
  have h0 : Sound s.world (fun d => live s (.release r) d ∨ d = r) S := h.sound.mono hsub (.inl hk)
  unfold act
  refine (release_spec h0 (fun hc => hc.2 rfl) (fun ht => ht.elim) hk
    (h.owned.mono fun hd => hsub (.inl hd))).bind ?_
  intro w _ hdown
  refine .pure (h.dropDirs _ (fun d => ?_) (fun hc => h.kernel (List.mem_of_mem_erase hc))
    (h.nodup.erase r) hdown.sound hdown.owned hdown.torn.kernel (fun hx => fresh_of_down hdown h0 hx))
  rw [h.nodup.mem_erase_iff]
  constructor
  · rintro ⟨hd | hd, hne⟩
    · exact .inl hd
    · exact .inr ⟨hne, hd⟩
  · rintro (rfl | ⟨hne, hd⟩)
    · exact hk
    · exact ⟨.inr hd, hne⟩

theorem act_unmapUserSpace (h : Inv S s) (hr : r ∈ s.dirs) :
    Spec False (Safe (live s (.unmapUserSpace r))) (Inv S) (act s (.unmapUserSpace r)) := by
  cases hm : Paging.mapKernel s.world with
  | none =>
    -- nothing has been given back by then
    unfold act
    dsimp only
    rw [Paging.unmapUserSpace, hm]
    refine ⟨fun _ hc => ?_, fun hc => ?_, fun ht => ht.elim⟩
    · cases hc
    · cases hc
  | some x =>
    obtain ⟨w1, pd⟩ := x
    have hmap := mapKernel_spec h.sound hm
    have hrk : r ≠ s.world.kernel.root := fun hc => h.kernel (hc ▸ hr)
    have hlive : live s (.unmapUserSpace r) = Swapped s.isDir r pd := by
      funext d
      refine propext (or_congr_right ⟨?_, fun hd => ⟨w1, pd, hm, hd⟩⟩)
      rintro ⟨w, pd', hm', rfl⟩
      rw [hm] at hm'
      cases hm'
      rfl
    rw [hlive]
    refine (unmapUserSpace_spec h.sound h.owned (.inr hr) hrk hm fun ht => ht.elim).bind ?_
    rintro ⟨w, pd'⟩ - ⟨rfl, w2, hf, -, hdown⟩
    have hnew : pd'.root ∉ s.dirs.erase r ∧ s.world.kernel.root ≠ pd'.root := by
      have hnot : ¬ s.isDir pd'.root := by
        intro hc
        have hlive := h.sound.rootLive hc
        rw [hmap.new] at hlive
        cases hlive
      exact ⟨fun hc => hnot (.inr (List.mem_of_mem_erase hc)), fun hc => hnot (.inl hc.symm)⟩
    have hsub : ∀ {d}, Swapped s.isDir r pd' d ∨ d = r → s.isDir d ∨ d = pd'.root := by
      rintro d ((hd | hd) | rfl)
      · exact .inl hd.1
      · exact .inr hd
      · exact .inl (.inr hr)
    have hk2 : w2.kernel = s.world.kernel := by
      rw [hf.eq]
      exact hmap.ext.kernel
    have h2 : Sound w2 (fun d => Swapped s.isDir r pd' d ∨ d = r) S := by
      rw [hf.eq]
      refine (hmap.sound.mono hsub (.inl (.inl ⟨.inl ?_, ?_⟩))).withFrames _
      · rw [hmap.ext.kernel]
      · rw [hmap.ext.kernel]
        exact hrk.symm
    refine .pure (h.dropDirs (pd'.root :: s.dirs.erase r) (fun d => ?_) ?_ ?_ hdown.sound
      hdown.owned (hdown.torn.kernel.trans hk2) (fun hx => fresh_of_down hdown h2 ?_))
    · rw [mem_cons, h.nodup.mem_erase_iff]
      constructor
      · rintro (⟨hd | hd, hne⟩ | hd)
        · exact .inl hd
        · exact .inr (.inr ⟨hne, hd⟩)
        · exact .inr (.inl hd)
      · rintro (rfl | hd | ⟨hne, hd⟩)
        · exact .inl ⟨.inl rfl, hrk.symm⟩
        · exact .inr hd
        · exact .inl ⟨.inr hd, hne⟩
    · rw [mem_cons, not_or]
      exact ⟨hnew.2, fun hc => h.kernel (List.mem_of_mem_erase hc)⟩
    · exact nodup_cons.mpr ⟨hnew.1, h.nodup.erase r⟩
    · have hx1 := hmap.grown.fresh hx
      rw [hf.eq]
      exact { hx1 with }

/-- Every step keeps the invariant, and gives back only what is no longer in use. -/
theorem act_spec {a : Act C} (h : Inv S s) (hg : Guard s a) :
    Spec False (Safe (live s a)) (Inv S) (act s a) := by
  cases a with
  | mapKernel =>
    refine (Spec.lift id False.elim).bind ?_
    rintro ⟨w, pd⟩ - hm
    have hmap := mapKernel_spec h.sound hm
    exact .pure (h.addDir hmap.sound (h.owned.mapKernel h.sound hmap) hmap.new hmap.ext.kernel
      hmap.grown.fresh)
  | mapPage r v attr =>
    refine (Spec.lift id
      False.elim).bind ?_
    rintro ⟨w, a⟩ - hm
    exact .pure (h.steady (mapPage_steady h.sound hg hm) (h.owned.mapPage h.sound hg hm))
  | handleFault r v =>
    refine (Spec.lift id
      False.elim).bind ?_
    rintro ⟨w, a⟩ - hm
    exact .pure (h.steady (handleFault_steady h.sound hg hm) (h.owned.handleFault h.sound hg hm))
  | clone r =>
    refine (Spec.lift id
      False.elim).bind ?_
    rintro ⟨⟨w, mem⟩, pd, i⟩ - hm
    have hclone := clone_spec h.sound h.owned (.inr hg) hm
    obtain ⟨s1, -, hcl, -⟩ := hclone.cloned
    exact .pure (h.addDir hcl.steady.sound hcl.owned hclone.new hclone.kernel hclone.fresh)
  | unmapUserSpace r => exact act_unmapUserSpace h hg
  | release r => exact act_release h hg
  | kmalloc =>
    refine (Spec.lift id False.elim).bind ?_
    rintro ⟨w, b, phys⟩ - hm
    have ha := allocBlock_spec h.sound hm
    have hinv := h.dropDirs _ (fun _ => Iff.rfl) h.kernel h.nodup ha.sound
      (h.owned.heapSteps ha.grown.steps) ha.ext.kernel ha.grown.fresh
    refine .pure { hinv with blocks := ?_, blocksNodup := ?_ }
    · intro x hx
      rcases mem_cons.mp hx with rfl | hx
      · exact ha.block
      · exact hinv.blocks x hx
    · exact nodup_cons.mpr ⟨fun hc => ha.new (h.blocks b hc) rfl, h.blocksNodup⟩
  | kfree b => exact act_kfree h hg
  | stackKmalloc =>
    refine (Spec.lift id False.elim).bind ?_
    rintro ⟨w, i⟩ - hm
    have hst := stackKmalloc_spec h.sound hm
    exact .pure (h.steady hst.steady (hst.owned h.owned))
  | stackKfree i => exact act_stackKfree h i
  | store r v x =>
    refine (Spec.lift (fun _ => trivial) False.elim).bind fun _ _ => ?_
    refine (Spec.lift (fun _ => trivial) False.elim).bind fun _ _ => ?_
    exact .pure { h with }

end Steps

/-! ## Runs -/

/-- The invariant, with a bitmap that there is room for. -/
structure Good (S : Nat) (s : State C) : Prop extends Inv S s where
  fits : s.world.Fits

theorem Good.step {a : Act C} (h : Good S s) (hg : Guard s a) (hs : step s a = some s') :
    Good S s' := by
  obtain ⟨hact, hfits⟩ := step_eq_some_iff.mp hs
  exact ⟨(act_spec h.toInv hg).post hact, hfits⟩

theorem Good.run {s₀ : State C} (h₀ : Good S s₀) (h : Reach Processes.step Guard s₀ s) : Good S s :=
  h.invariant h₀ fun _ _ _ hI hg hs => hI.step hg hs

section Owned

variable (h : Good S s) {r r' : Nat} {v v' : VAddr} (hr : s.isDir r)
  (hp : (pte s.world r v).p = true)
include h hr hp

theorem Good.used : Used s.world.frames (pte s.world r v).base :=
  (h.owned h.fits.named).marked (x := some (slotOf r v)) ⟨id, r, v, hr, rfl, hp, rfl⟩

theorem Good.slot_eq (hr' : s.isDir r') (hp' : (pte s.world r' v').p = true)
    (hbase : (pte s.world r v).base = (pte s.world r' v').base) : slotOf r v = slotOf r' v' :=
  Option.some.inj ((h.owned h.fits.named).unique
    ⟨id, r, v, hr, rfl, hp, rfl⟩ ⟨id, r', v', hr', rfl, hp', hbase.symm⟩)

end Owned

/-- **Frames are owned exclusively.** In every state that is reached: what is mapped is marked as
used, a frame is mapped in one slot only, and whatever a step gives back was marked and is mapped
nowhere by then. -/
theorem frames_owned_exclusively {s₀ : State C} (h₀ : Good S s₀) (h : Reach step Guard s₀ s) :
    (∀ r v, s.isDir r → (pte s.world r v).p = true →
      Used s.world.frames (pte s.world r v).base) ∧
    (∀ r v r' v', s.isDir r → s.isDir r' → (pte s.world r v).p = true →
      (pte s.world r' v').p = true → (pte s.world r v).base = (pte s.world r' v').base →
      slotOf r v = slotOf r' v') ∧
    ∀ a, Guard s a → ∀ k ∈ (act s a).calls, Safe (live s a) k := by
  have hgood : Good S s := h₀.run h
  refine ⟨fun r v hr hp => hgood.used hr hp, fun r v r' v' hr hr' hp hp' hbase => ?_,
    fun a hg => (act_spec hgood.toInv hg).calls⟩
  exact hgood.slot_eq hr hp hr' hp' hbase

/-- A kernel before its first process. -/
theorem Good.of_kernel {w : World} (hroot : w.kernel.root = 0) (h : Sound w (· = 0) S)
    (ho : Owned (· = 0) w) (hfits : w.Fits) (mem : Nat → C) : Good S ⟨w, mem, [], []⟩ := by
  have hdir : State.isDir ⟨w, mem, [], []⟩ = (· = 0) := by
    funext r
    simp [State.isDir, hroot]
  exact ⟨⟨hdir ▸ h, hdir ▸ ho, not_mem_nil, List.nodup_nil, fun _ hb => absurd hb not_mem_nil,
    List.nodup_nil⟩, hfits⟩

/-- The small kernel, before the first process. -/
def start : State Unit := ⟨smallKernel, fun _ => (), [], []⟩

theorem start_good : Good 2 start :=
  .of_kernel rfl smallKernel_sound smallKernel_owned (by decide) _

/-- A process with a page, and one that is deferred until it is faulted in. -/
def oneProcess : List (Act Unit) :=
  [.mapKernel, .mapPage 20 0x400000 7, .mapPage 20 0x401000 0xf, .handleFault 20 0x401000]

theorem frames_owned_exclusively_oneProcess :
    ∃ s, guardedRun step Guard start oneProcess = some s ∧ s.world.frames.length = 64 ∧
      (∀ r v, s.isDir r → (pte s.world r v).p = true →
        Used s.world.frames (pte s.world r v).base) ∧
      ∀ k ∈ (act s (.unmapUserSpace 20)).calls, Safe (live s (.unmapUserSpace 20)) k := by
  have hrun : (guardedRun step Guard start oneProcess).map
      (fun s => (s.world.frames.length, s.dirs)) = some (64, [20]) := by decide +kernel
  obtain ⟨s, hs, hfacts⟩ := map_eq_some_iff.mp hrun
  obtain ⟨hlen, hdirs⟩ := Prod.mk.inj hfacts
  obtain ⟨hused, -, hcalls⟩ := frames_owned_exclusively start_good (Reach.of_guardedRun hs)
  have hguard : Guard s (.unmapUserSpace 20) := by
    show 20 ∈ s.dirs
    rw [hdirs]
    exact mem_singleton.mpr rfl
  exact ⟨s, hs, hlen, hused, hcalls _ hguard⟩

end Flix.Paging.Processes

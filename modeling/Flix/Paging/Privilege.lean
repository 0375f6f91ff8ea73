import Flix.Paging.Sharing

/-!
# Pages that user code may use

`_mapPageTo` refuses public pages above `0xffffffffc0000000`, so that no process can
be given a page in the part that all directories share. It compares whole addresses,
while the walk reads the lower 48 bits of them. So the first address of the kernel
passes, which is not above itself, and so do addresses that are not canonical.
-/

namespace Flix.Paging.Privilege

open Runs Paging.Sharing

inductive Act where
  | mapPageTo (r : Nat) (v : VAddr) (paddr attr : Nat)
  | mapPage (r : Nat) (v : VAddr) (attr : Nat)
  | mapRange (r : Nat) (v : VAddr) (attr n : Nat)

def Act.root : Act → Nat
  | .mapPageTo r _ _ _ => r
  | .mapPage r _ _ => r
  | .mapRange r _ _ _ => r

def Act.attr : Act → Nat
  | .mapPageTo _ _ _ attr => attr
  | .mapPage _ _ attr => attr
  | .mapRange _ _ attr _ => attr

def act (w : World) : Act → Option World
  | .mapPageTo r v paddr attr => Paging.mapPageTo w r v paddr attr
  | .mapPage r v attr => (Paging.mapPage w r v attr).map Prod.fst
  | .mapRange r v attr n => Paging.mapRange w r v attr n

def step (s : Sharing.State) (a : Act) : Option Sharing.State := do
  assert (s.isDir a.root)
  let w ← act s.world a
  some { s with world := w }

/-- The addresses a call maps. -/
def Act.addrs : Act → List VAddr
  | .mapPageTo _ v _ _ => [v]
  | .mapPage _ v _ => [v]
  | .mapRange _ v _ n => (List.range n).map fun i => v + BitVec.ofNat 64 (i * 0x1000)

/-- A public page is mapped below the kernel's part, as the tables see it. -/
def Act.Ok (a : Act) : Prop :=
  a.attr.testBit 1 = true → ∀ v ∈ a.addrs, v.toNat % 2 ^ 48 < 0xffffc0000000

-- by going through the list, and not through all addresses
instance (a : Act) : Decidable a.Ok :=
  have : Decidable (∀ v ∈ a.addrs, v.toNat % 2 ^ 48 < 0xffffc0000000) := List.decidableBAll _ _
  inferInstanceAs (Decidable (_ → ∀ v ∈ a.addrs, v.toNat % 2 ^ 48 < 0xffffc0000000))

/-- No entry for the kernel's addresses is open to user code. -/
def NoUserPage (s : Sharing.State) : Prop :=
  ∀ r, s.isDir r → ∀ v, Shared v → (pte s.world r v).us = false

theorem not_shared_iff (v : VAddr) : ¬ Shared v ↔ v.toNat % 2 ^ 48 < 0xffffc0000000 := by
  simp only [Shared, index]
  omega

variable {w w' : World} {R : Nat → Prop} {S r : Nat}

/-! ## What a call opens to user code -/

/-- The entry of `v` becomes one for user code, if `attr` says so, and no other does. -/
def Opens (R : Nat → Prop) (w w' : World) (r : Nat) (vs : List VAddr) (attr : Nat) : Prop :=
  ∀ {r'} (v' : VAddr), R r' → ((pte w' r' v').us = true ↔
    (pte w r' v').us = true ∨ (attr.testBit 1 = true ∧ ∃ v ∈ vs, slotOf r' v' = slotOf r v))

theorem mapPageTo_opens (h : Sound w R S) (hr : R r) {v : VAddr} {paddr attr : Nat}
    (hm : mapPageTo w r v paddr attr = some w') :
    Sound w' R S ∧ w'.kernel = w.kernel ∧ Opens R w w' r [v] attr := by
  obtain ⟨-, w1, w2, hgrown, -, hwrite, href, h', hext⟩ := mapPageTo_spec h hr hm
  refine ⟨h', hext.kernel, ?_⟩
  intro r' v' hr'
  rw [href.grown.user v' hr', hwrite.view v' hr']
  by_cases hs : slotOf r' v' = slotOf r v
  · -- the bit is set where it was and where it is asked for
    have hslot : slotOf r' v' = slotOf r v := hs
    have hus : (pte w1 r v).us = (pte w r' v').us := by
      rw [hgrown.user v hr, h.pte_of_slot hr' hr hslot]
    rw [if_pos hs]
    show ((pte w1 r v).us || attr.testBit 1) = true ↔ _
    rw [hus]
    simp [hs]
  · rw [if_neg hs, hgrown.user v' hr']
    simp [hs]

theorem mapPage_opens (h : Sound w R S) (hr : R r) {v : VAddr} {attr a : Nat}
    (hm : mapPage w r v attr = some (w', a)) :
    Sound w' R S ∧ w'.kernel = w.kernel ∧ Opens R w w' r [v] attr := by
  rcases mapPage_cases hm with ⟨-, -, hto⟩ | ⟨-, frames, f, -, -, -, hto⟩
  · exact mapPageTo_opens h hr hto
  · exact mapPageTo_opens (h.withFrames frames) hr hto

theorem next_page (v : VAddr) (i : Nat) :
    v + BitVec.ofNat 64 ((i + 1) * 0x1000) = v + 0x1000 + BitVec.ofNat 64 (i * 0x1000) := by
  rw [show (i + 1) * 0x1000 = 0x1000 + i * 0x1000 by omega, BitVec.ofNat_add, BitVec.add_assoc]
  rfl

theorem mapRange_opens {n : Nat} (h : Sound w R S) (hr : R r) {v : VAddr} {attr : Nat}
    (hm : mapRange w r v attr n = some w') :
    Sound w' R S ∧ w'.kernel = w.kernel ∧
      Opens R w w' r ((List.range n).map fun i => v + BitVec.ofNat 64 (i * 0x1000)) attr := by
  induction n generalizing w v with
  | zero =>
    cases hm
    exact ⟨h, rfl, fun v' hr' => by simp⟩
  | succ n ih =>
    obtain ⟨⟨w1, a⟩, hpage, hm⟩ := of_bind hm
    obtain ⟨h1, hk1, hopens1⟩ := mapPage_opens h hr hpage
    obtain ⟨h', hk', hopens'⟩ := ih h1 hm
    refine ⟨h', hk'.trans hk1, ?_⟩
    intro r' v' hr'
    rw [hopens' v' hr', hopens1 v' hr']
    -- the first page and the pages after it
    have hlist : (List.range (n + 1)).map (fun i => v + BitVec.ofNat 64 (i * 0x1000))
        = v :: (List.range n).map fun i => v + 0x1000 + BitVec.ofNat 64 (i * 0x1000) := by
      rw [List.range_succ_eq_map, List.map_cons, List.map_map]
      refine congrArg₂ List.cons (by simp) (List.map_congr_left fun i _ => ?_)
      exact next_page v i
    rw [hlist, List.exists_mem_cons_iff, List.exists_mem_cons_iff]
    tauto

/-- Every call opens the pages it maps public, and no others. -/
theorem act_opens (h : Sound w R S) {a : Act} (hr : R a.root) (ha : act w a = some w') :
    Sound w' R S ∧ w'.kernel = w.kernel ∧ Opens R w w' a.root a.addrs a.attr := by
  cases a with
  | mapPageTo r v paddr attr => exact mapPageTo_opens h hr ha
  | mapPage r v attr =>
    obtain ⟨⟨w1, p⟩, hm, heq⟩ := map_eq_some_iff.mp ha
    cases heq
    exact mapPage_opens h hr hm
  | mapRange r v attr n => exact mapRange_opens h hr ha

/-! ## Runs -/

/-- One call keeps the kernel's pages to itself exactly if it maps no public page there. -/
theorem step_noUserPage_iff {s s' : Sharing.State} {a : Act} (h : Inv S s) (hno : NoUserPage s)
    (hs : step s a = some s') : Inv S s' ∧ (NoUserPage s' ↔ a.Ok) := by
  obtain ⟨hr, hs⟩ := of_assert hs
  obtain ⟨w', ha, hs⟩ := of_bind hs
  cases hs
  obtain ⟨h', hk, hopens⟩ := act_opens h.sound hr ha
  have hdir : ∀ {r}, State.isDir { s with world := w' } r ↔ s.isDir r := by
    intro r
    rw [State.isDir, State.isDir, hk]
  refine ⟨⟨h'.mono (fun hr => hdir.mp hr) (.inl rfl)⟩, ?_, ?_⟩
  · intro hno' hpub v hv
    rw [← not_shared_iff]
    intro hshared
    have hus := (hopens v hr).mpr (.inr ⟨hpub, v, hv, rfl⟩)
    rw [hno' a.root (hdir.mpr hr) v hshared] at hus
    cases hus
  · intro hok r hr' v hshared
    by_contra hc
    rcases (hopens v (hdir.mp hr')).mp (by simpa using hc) with hold | ⟨hpub, v1, hv1, hslot⟩
    · rw [hno r (hdir.mp hr') v hshared] at hold
      cases hold
    · -- the page that was mapped is as much the kernel's as this one
      refine (not_shared_iff v1).mpr (hok hpub v1 hv1) ?_
      obtain ⟨⟨hp, -⟩, -⟩ := slotOf_eq_iff.mp hslot
      simp only [path, List.cons.injEq] at hp
      rw [Shared, ← hp.1, ← hp.2.1]
      exact hshared

/-- **No user page in the kernel's part**, over every run whose public pages are below it by their
lower 48 bits. The first call that maps one elsewhere and is not refused opens the kernel. -/
theorem noUserPage_iff {s₀ s : Sharing.State} (h₀ : Inv S s₀) (hno : NoUserPage s₀)
    (hreach : Reach step (fun _ a => a.Ok) s₀ s) :
    NoUserPage s ∧ ∀ a s', step s a = some s' → (NoUserPage s' ↔ a.Ok) := by
  have hinv : Inv S s ∧ NoUserPage s := by
    refine hreach.invariant (I := fun s => Inv S s ∧ NoUserPage s) ⟨h₀, hno⟩ ?_
    intro s a s' hI hok hs
    obtain ⟨h', hiff⟩ := step_noUserPage_iff hI.1 hI.2 hs
    exact ⟨h', hiff.mpr hok⟩
  exact ⟨hinv.2, fun a s' hs => (step_noUserPage_iff hinv.1 hinv.2 hs).2⟩

theorem smallKernel_noUserPage : NoUserPage ⟨smallKernel, []⟩ := by
  rintro r (rfl | hr) v -
  · show (pte smallKernel 0 v).us = false
    cases hf : Radix.follow smallKernel.tables 0 (path v) with
    | none =>
      rw [pte_of_none hf]
      rfl
    | some t =>
      rcases smallKernel_follow hf with ⟨hp, -⟩ | ⟨hp, -⟩ | ⟨hp, -⟩ | ⟨-, rfl⟩
      · cases congrArg List.length hp
      · cases congrArg List.length hp
      · cases congrArg List.length hp
      · rw [pte_of_follow hf rfl]
        show (if _ then _ else _ : Entry).us = false
        split <;> rfl
  · cases hr

theorem smallKernel_inv : Inv 2 ⟨smallKernel, []⟩ := by
  refine ⟨smallKernel_sound.mono ?_ (.inl rfl)⟩
  rintro r (hr | hr)
  · exact hr
  · cases hr

/-- A program's stack, and the kernel's pages stay its own. -/
theorem noUserPage_iff_stack :
    ∃ s, guardedRun step (fun _ a => a.Ok) ⟨smallKernel, []⟩
        [.mapRange 0 0xf000000000 3 4] = some s ∧ NoUserPage s := by
  have hsome : (guardedRun step (fun _ a => a.Ok) ⟨smallKernel, []⟩
      [.mapRange 0 0xf000000000 3 4]).isSome := by decide +kernel
  obtain ⟨s, hs⟩ := isSome_iff_exists.mp hsome
  exact ⟨s, hs,
    (noUserPage_iff smallKernel_inv smallKernel_noUserPage (Reach.of_guardedRun hs)).1⟩

/-- **A public page in the kernel's part**, asked for at an address that is not canonical. The call
is not refused. -/
theorem public_page_in_kernel :
    ∃ s, step ⟨smallKernel, []⟩ (.mapPage 0 0x0000ffffd8000000 3) = some s ∧
      Shared 0xffffffffd8000000 ∧ (pte s.world 0 0xffffffffd8000000).us = true := by
  have hrun : ((step ⟨smallKernel, []⟩ (.mapPage 0 0x0000ffffd8000000 3)).map fun s =>
      (pte s.world 0 0xffffffffd8000000).us) = some true := by decide +kernel
  obtain ⟨s, hs, hus⟩ := map_eq_some_iff.mp hrun
  exact ⟨s, hs, by decide, hus⟩

end Flix.Paging.Privilege

import Flix.Paging.CloneTotal
import Flix.Paging.Processes

/-!
# A clone has the memory of its parent

At the time of the call the lower half of the child is a copy of the parent's, on frames
of its own. From then on frames are owned exclusively, so that neither sees what the
other writes.
-/

namespace Flix.Paging.Processes

open Function Radix Runs Traced

variable {C : Type} {S r c : Nat} {s s' : State C}

/-! ## What is read -/

theorem Inv.read_eq (h : Inv S s) (hr : s.isDir r) (v : VAddr) :
    s.read r v
      = if (pte s.world r v).p then some (s.mem (pte s.world r v).base) else none := by
  rw [State.read, h.sound.getPhysicalAddress_eq hr]
  split
  · show some (s.mem ((pte s.world r v).base * PAGE_SIZE / PAGE_SIZE)) = _
    rw [Nat.mul_div_cancel _ (by decide)]
  · rfl

/-- A write to the lower half is seen by nobody else. -/
theorem store_private (h : Good S s) {d d' : Nat} {v v' : VAddr} {x : C} (hd : s.isDir d)
    (hd' : s.isDir d') (hne : d ≠ d') (hv : Low v) (hs : step s (.store d v x) = some s') :
    s'.read d' v' = s.read d' v' := by
  have h' : Good S s' := h.step (a := .store d v x) hd hs
  obtain ⟨hs, -⟩ := step_eq_some_iff.mp hs
  unfold act at hs
  simp only [result_bind, result_lift, h.sound.getPhysicalAddress_eq hd] at hs
  by_cases hp : (pte s.world d v).p = true
  · rw [if_pos hp] at hs
    cases hs
    rw [h'.read_eq hd', h.read_eq hd']
    split
    · rename_i hp'
      refine congrArg some (update_of_ne ?_ ..)
      rw [Nat.mul_div_cancel _ (by decide)]
      intro hbase
      rcases (slotOf_eq_iff.mp (h.slot_eq hd hp hd' hp' hbase.symm)).2 with heq | hshared
      · exact hne heq
      · exact hv.not_shared hshared
    · rfl
  · rw [if_neg hp] at hs
    cases hs

/-! ## The clone -/

/-- The directory `c` is a duplicate of the lower half that `r` had in `s`. -/
structure Duplicate (s s' : State C) (r c : Nat) : Prop where
  valid : ∀ {v}, Low v → (pte s'.world c v).isValid = (pte s.world r v).isValid
  attributes : ∀ {v}, Low v → (pte s.world r v).isValid = true →
    (pte s'.world c v).getAttributes = (pte s.world r v).getAttributes
  /-- In particular a page that is deferred has no frame. -/
  present : ∀ {v}, Low v → (pte s'.world c v).p = (pte s.world r v).p
  frames : ∀ {v v'}, Low v → (pte s'.world c v).p = true → (pte s'.world r v').p = true →
    (pte s'.world c v).base ≠ (pte s'.world r v').base
  distinct : ∀ {v v'}, Low v → Low v' → (pte s'.world c v).p = true →
    (pte s'.world c v').p = true → (pte s'.world c v).base = (pte s'.world c v').base →
    pageOf v = pageOf v'
  contents : ∀ {v}, Low v → s'.read c v = s.read r v
  parent : ∀ {v}, Low v → pte s'.world r v = pte s.world r v ∧ s'.read r v = s.read r v
  /-- The buffer is gone, or there never was one since nothing had to be copied. -/
  buffer : (pte s'.world r bufferPage).p = false ∨
    pte s'.world r bufferPage = pte s.world r bufferPage

variable {w : World}

/-- What becomes of the pages, of the parent and of the child. -/
theorem clone_pages {s1 : World × (Nat → C)} {R : Nat → Prop} {mem : Nat → C}
    (hcl : Cloned R S r c s1 lowerPages (w, mem)) (hr : s.isDir r)
    (hparent : ∀ {r} (v : VAddr), s.isDir r → ¬ Shared v → pte s1.1 r v = pte s.world r v)
    {v : VAddr} (hv : Low v) :
    pte w r v = pte s.world r v ∧ Copy s1 (w, mem) (pte s.world r v) (pte w c v) := by
  rw [← hparent v hr hv.not_shared, hv.pte_eq s1.1, hv.pte_eq w, hv.pte_eq w]
  exact ⟨hcl.parent hv.pageOf_lt, hcl.child hv.pageOf_lt hv.pageOf_lt⟩

theorem clone_duplicate (h : Good S s) (hr : r ∈ s.dirs) (hs : step s (.clone r) = some s') :
    ∃ c, s'.dirs = c :: s.dirs ∧ Duplicate s s' r c := by
  have h' : Good S s' := h.step (a := .clone r) hr hs
  have hb := h'.fits.named
  obtain ⟨hs, -⟩ := step_eq_some_iff.mp hs
  unfold act at hs
  simp only [result_bind] at hs
  obtain ⟨⟨⟨w, mem⟩, pd, i⟩, hclone, hs⟩ := of_bind hs
  cases hs
  obtain ⟨⟨s1, hmem, hcl, hparent, hused⟩, hnew, -⟩ :=
    clone_spec h.sound h.owned (.inr hr) hclone
  have hne : r ≠ pd.root := by
    rintro rfl
    have hlive := h.sound.rootLive (.inr hr)
    rw [hnew] at hlive
    cases hlive
  have hdir : State.isDir ⟨w, mem, pd.root :: s.dirs, s.blocks⟩ r := .inr (mem_cons_of_mem _ hr)
  have hdir' : State.isDir ⟨w, mem, pd.root :: s.dirs, s.blocks⟩ pd.root := .inr mem_cons_self
  -- the parent's pages, then and now
  have hpage : ∀ {v}, Low v → pte w r v = pte s.world r v :=
    fun hv => (clone_pages hcl (.inr hr) hparent hv).1
  have hcopy : ∀ {v}, Low v → Copy s1 (w, mem) (pte s.world r v) (pte w pd.root v) :=
    fun hv => (clone_pages hcl (.inr hr) hparent hv).2
  have hkeep : ∀ {v}, (pte s.world r v).p = true →
      mem (pte s.world r v).base = s.mem (pte s.world r v).base := by
    intro v hp
    rw [← show s1.2 = s.mem from hmem]
    exact hcl.memory hb (hused (h.used (.inr hr) hp))
  refine ⟨pd.root, rfl, fun hv => (hcopy hv).same.1, fun hv => (hcopy hv).same.2.1,
    fun hv => (hcopy hv).same.2.2, ?_, ?_, ?_, ?_, ?_⟩
  · intro v v' hv hp hp' hbase
    rcases (slotOf_eq_iff.mp (h'.slot_eq hdir' hp hdir hp' hbase)).2 with heq | hshared
    · exact hne heq.symm
    · exact hv.not_shared hshared
  · intro v v' hv hv' hp hp' hbase
    exact hv.slot_inj hv' (h'.slot_eq hdir' hp hdir' hp' hbase)
  · intro v hv
    rw [h'.read_eq hdir', h.read_eq (.inr hr), (hcopy hv).same.2.2]
    split
    · rename_i hp
      rcases hcopy hv with ⟨he, -⟩ | ⟨he, -⟩ | ⟨-, -, hframe, he', hsame⟩
      · rw [Entry.isValid, hp] at he
        cases he
      · rw [he.1] at hp
        cases hp
      · rw [he']
        show some (mem (_ * PAGE_SIZE / PAGE_SIZE % 2 ^ 40)) = _
        rw [Nat.mul_div_cancel _ (by decide), hframe.base_eq hb]
        exact congrArg some ((hsame hb).trans (congrFun hmem _))
    · rfl
  · intro v hv
    refine ⟨hpage hv, ?_⟩
    rw [h'.read_eq hdir, h.read_eq (.inr hr)]
    show (if (pte w r v).p then some (mem (pte w r v).base) else none) = _
    rw [hpage hv]
    split
    · rename_i hp
      rw [hkeep hp]
    · rfl
  · rcases hcl.buffer with hbuf | hbuf
    · exact .inl hbuf
    · exact .inr (hbuf.trans (hparent _ (.inr hr) buffer_not_shared))

/-! ## A process with one page -/

theorem act_mapKernel {pd : PageDirectory} (h : Paging.mapKernel s.world = some (w, pd)) :
    (act s .mapKernel).result = some { s with world := w, dirs := pd.root :: s.dirs } := by
  unfold act
  simp only [h]
  rfl

theorem act_mapPage {v : VAddr} {attr a : Nat}
    (h : Paging.mapPage s.world r v attr = some (w, a)) :
    (act s (.mapPage r v attr)).result = some { s with world := w } := by
  unfold act
  simp only [h]
  rfl

theorem act_clone {mem : Nat → C} {pd : PageDirectory} {i : Nat}
    (h : Paging.clone (s.world, s.mem) r = some ((w, mem), pd, i)) :
    (act s (.clone r)).result = some { s with world := w, mem := mem, dirs := pd.root :: s.dirs } := by
  unfold act
  simp only [h]
  rfl

/-- The small kernel, with something in the frames. -/
def boot (mem : Nat → C) : State C := ⟨smallKernel, mem, [], []⟩

theorem boot_good (mem : Nat → C) : Good 2 (boot mem) :=
  .of_kernel rfl smallKernel_sound smallKernel_owned (by decide) mem

/-- A world in which `r` has a page at `0x400000`, and nothing else. -/
structure OnePage (w : World) (r : Nat) : Prop where
  ready : Ready (fun d => d = 0 ∨ d = r) 2 Pool.blockLimit w
  room : w.heap.map.length + 60 ≤ Pool.blockLimit
  pool : w.heap.pool.length = 16
  present : (pte w r (userPage 1024)).p = true
  accepts : Accepts (userPage 1024) (pte w r (userPage 1024)).getAttributes
  only : ∀ m < lowerPages, m ≠ 1024 → (pte w r (userPage m)).isValid = false
  buffer : (pte w r bufferPage).p = false
  stack : w.stackHeap.map = []
  vacant : ∀ i < 4, (pte w w.kernel.root (stackPage 0 i)).p = false

theorem boot_onePage (mem : Nat → C) :
    ∃ w r, Reach step Guard (boot mem) ⟨w, mem, [r], []⟩ ∧ OnePage w r ∧
      Supply (fun f l => Named f l ∧ l.length < heapBits) 121 w.frames := by
  have hst : Stock (fun _ l => l.length < heapBits) (· = 0) 2 Pool.blockLimit 80 smallKernel :=
    ⟨Pool.smallKernel_full.ready, by decide, by decide, supply_of_length (by decide) (by decide)⟩
  have hsound := hst.ready.sound
  obtain ⟨w1, pd, hk, hst1, hlow, hhigh⟩ := hst.mapKernel (by decide)
  have hpool0 : smallKernel.heap.pool.length = 16 := rfl
  have hmap := mapKernel_spec hsound hk
  have hprivate : ¬ Shared (userPage 1024) := lower_not_shared (by decide)
  have hzero : ∀ {v}, ¬ Shared v → pte w1 pd.root v = .zero := by
    intro v hv
    rw [hmap.view, if_neg hv]
  obtain ⟨w2, a, hm, hst2, hpool2, hframe⟩ := mapPage_total (c := 60)
    (hst1.mono (by omega)) (by omega) (.inr rfl)
    (show Accepts (userPage 1024) 7 from ⟨by decide, by decide, by decide⟩)
    (by rw [hzero hprivate]; rfl) (Apart.of_private le_rfl hprivate)
  obtain ⟨x, hx, hview⟩ := mapPage_private hst1.ready.sound (.inr rfl) hm
  obtain ⟨-, rfl⟩ := hx hprivate
  have hpage := hview (userPage 1024) (.inr rfl) hprivate
  rw [if_pos rfl, hzero hprivate] at hpage
  have hother : ∀ {v}, ¬ Shared v → slotOf pd.root v ≠ slotOf pd.root (userPage 1024) →
      pte w2 pd.root v = .zero := by
    intro v hv hne
    rw [hview v (.inr rfl) hv, if_neg hne, hzero hv]
  have hs1 : step (boot mem) .mapKernel = some ⟨w1, mem, [pd.root], []⟩ :=
    step_eq_some_iff.mpr ⟨act_mapKernel hk, hst1.frames.length_lt.le⟩
  have hs2 : step (⟨w1, mem, [pd.root], []⟩ : State C) (.mapPage pd.root (userPage 1024) 7)
      = some ⟨w2, mem, [pd.root], []⟩ :=
    step_eq_some_iff.mpr ⟨act_mapPage hm, hst2.frames.length_lt.le⟩
  refine ⟨w2, pd.root, .tail (a := .mapPage pd.root (userPage 1024) 7)
    (.tail (a := .mapKernel) .start trivial hs1) (.inr (mem_singleton.mpr rfl)) hs2,
    ⟨hst2.ready, hst2.blocks, hpool2, ?_, ?_, ?_, ?_, ?_, ?_⟩, hst2.frames⟩
  · rw [hpage]
    rfl
  · have hattr : (setAttributes 7 (Entry.zero.present a)).getAttributes = 7 := rfl
    rw [hpage, hattr]
    exact ⟨by decide, by decide, by decide⟩
  · intro m hm hne
    rw [hother (lower_not_shared hm) fun hs => hne (userPage_slot_inj hm (by decide) hs)]
    decide
  · rw [hother buffer_not_shared (userPage_ne_buffer (by decide) _ _).symm]
    rfl
  · rw [mapPage_stackHeap hst1.ready.sound (.inr rfl) hm, hmap.grown.stackHeap]
    rfl
  · intro i hi
    have hk1 : w1.kernel = smallKernel.kernel := hmap.ext.kernel
    have hk2 : w2.kernel = w1.kernel :=
      (mapPage_steady hst1.ready.sound (.inr rfl) hm).ext.kernel
    have hroom1 : w1.heap.map.length + 78 ≤ 16384 := hst1.blocks
    have hroom2 : w2.heap.map.length + 60 ≤ 16384 := hst2.blocks
    have hlt : 0 < stackLimit := by decide
    have hshared : Shared (stackPage 0 i) := by
      refine stackPages_shared (mem_stackPages.mpr ⟨i, hi, rfl⟩) ?_
      rw [stackPage_toNat hlt hi]
      omega
    obtain ⟨e, -, hviewAll⟩ := mapPage_view hst1.ready.sound (.inr rfl) hm
    rw [hk2, hviewAll _ (.inl (by rw [hk1]; rfl))
        ((stackPage_apart le_rfl hlt hi).not_heapPage hk2 (by omega)),
      if_neg (slotOf_ne_of_shared hprivate hshared).symm, hk1,
      hmap.grown.steps.pte_eq hsound.kernel
        ((stackPage_apart le_rfl hlt hi).not_heapPage hk1 (by omega))]
    revert i
    decide

theorem OnePage.clone_total {P : Nat → List Bool → Prop} (h : OnePage w r)
    (hs : Supply (fun f l => Named f l ∧ P f l) 121 w.frames) (mem : Nat → C) :
    ∃ s' newPd stack f l, Paging.clone (w, mem) r = some (s', newPd, stack) ∧ P f l ∧
      (pte s'.1 newPd.root (userPage 1024)).base = f % 2 ^ 40 ∧
      Supply (fun f l => Named f l ∧ P f l) 1 s'.1.frames := by
  have hnext : nextFree w.stackHeap.map = 0 := by
    rw [h.stack]
    rfl
  exact Paging.clone_total ⟨h.ready, by decide, h.room, hs⟩ h.pool le_rfl (.inr rfl) (by decide) h.present
    h.accepts h.only h.buffer (by rw [hnext]; decide) (by rw [hnext]; exact h.vacant)

/-! ## The result -/

/-- **A clone has the memory of its parent, and its own.** In every state that is reached the child
is a duplicate of the parent's lower half, and whatever happens from then on, what is written to a
lower half is seen by nobody else. -/
theorem clone_duplicates_memory {s₀ : State C} (h₀ : Good S s₀) (h : Reach step Guard s₀ s)
    (hr : r ∈ s.dirs) (hs : step s (.clone r) = some s') :
    (∃ c, s'.dirs = c :: s.dirs ∧ Duplicate s s' r c) ∧
    ∀ t t' d d' v v' x, Reach step Guard s' t → t.isDir d → t.isDir d' → d ≠ d' → Low v →
      step t (.store d v x) = some t' → t'.read d' v' = t.read d' v' := by
  have hgood : Good S s := h₀.run h
  refine ⟨clone_duplicate hgood hr hs, ?_⟩
  intro t t' d d' v v' x ht hd hd' hne hv hstore
  have hgood' : Good S s' := hgood.step (a := .clone r) hr hs
  exact store_private (hgood'.run ht) hd hd' hne hv hstore

theorem clone_duplicates_memory_onePage :
    ∃ (s s' : State Nat) (r c : Nat), Good 2 (boot id) ∧ Reach step Guard (boot id) s ∧
      r ∈ s.dirs ∧ step s (.clone r) = some s' ∧
      s'.dirs = c :: s.dirs ∧ (pte s.world r 0x400000).p = true ∧
      (pte s'.world c 0x400000).p = true ∧ s'.read c 0x400000 = s.read r 0x400000 := by
  obtain ⟨w, r, hreach, hone, hsupply⟩ := boot_onePage (C := Nat) id
  obtain ⟨⟨w', mem⟩, pd, i, -, -, hclone, -, -, hleft⟩ := hone.clone_total hsupply id
  have hs := step_eq_some_iff.mpr
    ⟨act_clone (s := ⟨w, id, [r], []⟩) hclone, hleft.length_lt.le⟩
  obtain ⟨⟨c, hc, hdup⟩, -⟩ := clone_duplicates_memory (boot_good id) hreach
    (mem_singleton.mpr rfl) hs
  have hlow : Low 0x400000 := by decide
  have hp : (pte w r 0x400000).p = true := hone.present
  refine ⟨_, _, r, c, boot_good id, hreach, mem_singleton.mpr rfl, hs, hc, hp, ?_,
    hdup.contents hlow⟩
  rw [hdup.present hlow]
  exact hp

end Flix.Paging.Processes

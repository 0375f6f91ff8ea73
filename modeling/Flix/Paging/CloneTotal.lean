import Flix.Paging.StackHeap

/-!
# When a clone succeeds

A clone maps pages, and mapping needs blocks and frames. With a stock of both, and a page
in the lower half to be copied, nothing stops it: the directory, the stack and the copy
each find what they need.
-/

namespace Flix.Paging

open Function Radix Traced

variable {w w₁ w' : World} {P : Nat → List Bool → Prop} {R : Nat → Prop} {S N : Nat}

/-! ## The directory -/

/-- A walk of one level out of a blank table, when there is a block. -/
theorem getEntryCreate_of_blank {alloc : World → Option (World × Nat × Nat)} {init : Entry → Entry}
    {stop t u phys : Nat} {v : VAddr} (ht : w.tables t = some (Node.blank .zero))
    (ha : alloc w = some (w₁, u, phys)) (ht1 : w₁.tables t = some (Node.blank .zero))
    (hut : t ≠ u) :
    getEntryCreate alloc init stop 1 w t v = some (w₁.link t (index (stop + 1) v) u
      (init (Entry.zero.present phys)), u, index stop v) := by
  have hT : setNext (update w₁.tables u (some (Node.blank Entry.zero))) t (index (stop + 1) v) u t
      = some { (Node.blank Entry.zero) with
        next := update (fun _ => none) (index (stop + 1) v) (some u) } :=
    setNext_self (by rw [update_of_ne hut, ht1])
  simp only [getEntryCreate, ht, bind_eq_bind, bind_some, ha, hT, map_some]
  rfl

/-- A blank table in a fresh block is of no concern. -/
theorem Stock.blanked {k u : Nat} (h : Stock P R S N k w) (hu : Fresh w u) :
    Stock P R S N k (w.blanked u) := by
  have hprep : ∀ b, Prepared (w.blanked u) b ↔ Prepared w b := by
    intro b
    rw [Prepared, Prepared, World.blanked, follow_new hu.noTable]
  refine ⟨⟨(hu.blanked h.ready.sound).1, h.ready.idle, (hprep 0).mpr h.ready.first,
    fun hb => (hprep _).mpr (h.ready.prepared hb), fun {b n} hb hbN hn hmap => ?_⟩, h.limit,
    h.blocks, h.frames⟩
  have hpte : pte (w.blanked u) w.kernel.root (heapPage b n) = pte w w.kernel.root (heapPage b n) :=
    leaf_new hu.noTable
  exact (congrArg Entry.p hpte).trans (h.ready.vacant hb hbN hn hmap)

section MapKernel

variable {k : Nat} (h : Stock P R S N (k + 2) w) (hpool : 2 ≤ w.heap.pool.length)
include h hpool

/-- There is a new directory, -/
theorem mapKernel_total : ∃ w' pd, mapKernel w = some (w', pd) := by
  obtain ⟨w₁, u, phys, ha, ht, -, hst1⟩ := h.allocBlock
    (.inr (List.ne_nil_of_length_pos (by omega)))
  have hpool1 := ht.pool_length
  obtain ⟨h2, hfar2⟩ := ht.alloc.block.blanked ht.alloc.sound
  have hu2 := blanked_self w₁ u
  obtain ⟨w3, u', phys', ha', ht', -, -⟩ := (hst1.blanked ht.alloc.block).allocBlock
    (.inr (List.ne_nil_of_length_pos (by show 0 < w₁.heap.pool.length; omega)))
  have hu3 : w3.tables u = some (Node.blank .zero) := by
    rw [ht'.alloc.ext.foreign (by rw [hu2]; rfl) (fun hr => hfar2 hr), hu2]
  have hne : u ≠ u' := (ht.alloc.second ht'.alloc).1
  -- what the kernel's directory has there
  obtain ⟨t, n, hf, hn, hnext⟩ := h2.shared_parent h2.kernel
  have hwalk := @getEntryCreate_of_blank _ _ _ (setAttributes ATTR_RW) 2 _ _ _ kernelVBase
    hu2 ha' hu3 hne
  obtain ⟨n3, hn3, -⟩ := ht'.alloc.ext.node hn
  have htu : t ≠ u := by
    rintro rfl
    exact hfar2 h2.kernel hf
  have htu' : t ≠ u' := ht'.alloc.block.ne (by rw [hn3]; rfl)
  rw [mapKernel, createPm, ha]
  simp only [bind_eq_bind, bind_some]
  rw [← World.blanked]
  show ∃ w' pd, ((getEntry (w₁.blanked u).tables 2 1 (w₁.blanked u).kernel.root kernelVBase).bind
    _).bind _ = some (w', pd)
  rw [h2.getEntry_kernel hf]
  simp only [bind_eq_bind, bind_some, hwalk, link_of_ne htu htu', hn3,
    link_new hne.symm]
  simp only [World.entry, update_of_ne hne, link_at hne.symm hu3]
  exact ⟨_, _, rfl⟩

theorem Stock.mapKernel : ∃ w' pd, mapKernel w = some (w', pd) ∧
    Stock P (fun r => R r ∨ r = pd.root) S N k w' ∧
      w.heap.pool.length ≤ w'.heap.pool.length + 2 ∧
      w'.heap.pool.length ≤ w.heap.pool.length := by
  obtain ⟨w', pd, hm⟩ := mapKernel_total h hpool
  refine ⟨w', pd, hm, ?_⟩
  obtain ⟨w₁, u, phys, ha, ht, -, hst1⟩ := h.allocBlock
    (.inr (List.ne_nil_of_length_pos (by omega)))
  have hpool1 := ht.pool_length
  obtain ⟨x1, phys0, w3, u', phys', e, e', hx, ha', hw', -⟩ :=
    mapKernel_cases h.ready.sound hm
  obtain ⟨rfl, hpair⟩ := Prod.mk.inj (mem_unique ha hx)
  obtain ⟨hu, -⟩ := Prod.mk.inj hpair
  rw [← hu] at ha' hw'
  obtain ⟨x3, y', phys1, hy, ht', -, hst3⟩ := (hst1.blanked ht.alloc.block).allocBlock
    (.inr (List.ne_nil_of_length_pos (by show 0 < w₁.heap.pool.length; omega)))
  cases hy.symm.trans ha'
  have hpool2 : w₁.heap.pool.length ≤ w3.heap.pool.length + 1 ∧
      w3.heap.pool.length ≤ w₁.heap.pool.length := ht'.pool_length
  obtain ⟨-, -, hfar3⟩ := ht.alloc.second ht'.alloc
  have hk : w'.kernel = w3.kernel := by rw [hw']; rfl
  have hheap : w'.heap = w3.heap := by rw [hw']; rfl
  have hframes : w'.frames = w3.frames := by rw [hw']; rfl
  -- the new tables are nobody else's
  have hprep : ∀ b, Prepared w' b ↔ Prepared w3 b := by
    intro b
    rw [Prepared, Prepared, hk, hw', follow_newRoot ht'.alloc.sound hfar3 ht'.alloc.block
      ht'.alloc.sound.kernel]
  refine ⟨⟨⟨(mapKernel_spec h.ready.sound hm).sound, by rw [hheap]; exact hst3.ready.idle,
    (hprep 0).mpr hst3.ready.first, fun hb => ?_, fun hb hbN hn hmap => ?_⟩, h.limit,
    by rw [hheap]; exact hst3.blocks, by rw [hframes]; exact hst3.frames⟩, ?_, ?_⟩
  · rw [hheap] at hb
    exact (hprep _).mpr (hst3.ready.prepared hb)
  · rw [hheap] at hmap
    rw [hk, hw', pte_newRoot ht'.alloc.sound hfar3 ht'.alloc.block ht'.alloc.sound.kernel]
    exact hst3.ready.vacant hb hbN hn hmap
  · rw [hheap]
    omega
  · rw [hheap]
    omega

end MapKernel

/-! ## The stack -/

theorem stackPage_accepts {b n : Nat} (hb : b < stackLimit) (hn : n < 4) :
    Accepts (stackPage b n) (ATTR_RW + ATTR_NOEXEC) := by
  refine ⟨fun hc => ?_, fun hc => absurd hc.2 (by decide), by decide⟩
  rw [stackPage_toNat hb hn] at hc
  omega

/-- Pages that are not mapped can be mapped, one after the other. -/
theorem mapStackPages_total {c : Nat} {l : List VAddr} (h : Stock P R S N (c + 9 * l.length) w)
    (hpool : w.heap.pool.length = 16)
    (hl : l.Pairwise fun y z => slotOf w.kernel.root z ≠ slotOf w.kernel.root y)
    (hfree : ∀ v ∈ l, Accepts v (ATTR_RW + ATTR_NOEXEC) ∧ Apart N w w.kernel.root v ∧
      (pte w w.kernel.root v).p = false) :
    ∃ w', l.foldlM (fun w v => (mapStackPage w v).map Prod.fst) w = some w' ∧ Stock P R S N c w' ∧
      w'.heap.pool.length = 16 := by
  induction l generalizing w with
  | nil => exact ⟨w, rfl, h, hpool⟩
  | cons y l ih =>
    obtain ⟨hy, hl⟩ := List.pairwise_cons.mp hl
    obtain ⟨haccept, hapart, hp⟩ := hfree y mem_cons_self
    rw [length_cons] at h
    obtain ⟨w₁, a, hm, hst, hpool1, -⟩ := mapPage_total (c := c + 9 * l.length)
      (h.mono (by omega)) (by omega) h.ready.sound.kernel haccept hp hapart
    have hroom := hst.blocks
    obtain ⟨hadds, -⟩ := mapStackPage_adds h.ready.sound hm (by omega) hapart
    obtain ⟨w', hfold, hst', hpool'⟩ := ih hst hpool1 (hadds.kernel ▸ hl) fun v hv => by
      obtain ⟨haccept, hapart, hp⟩ := hfree v (mem_cons_of_mem _ hv)
      refine ⟨haccept, ?_, ?_⟩
      · rw [hadds.kernel]
        exact hapart.congr hadds.kernel
      · rw [hadds.kernel, hadds.same hapart ?_]
        · exact hp
        · intro z hz
          rw [mem_singleton.mp hz]
          exact hy v hv
    refine ⟨w', ?_, hst', hpool'⟩
    show ((mapPage w w.kernel.root y (ATTR_RW + ATTR_NOEXEC)).map Prod.fst).bind _ = _
    rw [hm]
    exact hfold

theorem Stock.withStackHeap {k : Nat} (h : Stock P R S N k w) (x : StackPageHeap) :
    Stock P R S N k { w with stackHeap := x } :=
  { h with ready := { h.ready with sound := h.ready.sound.of_tables rfl rfl rfl fun _ hb => hb } }

/-- There is a new stack, if there are addresses for it. -/
theorem stackKmalloc_total {c : Nat} (h : Stock P R S N (c + 52 - w.heap.pool.length) w)
    (hpool : 4 ≤ w.heap.pool.length ∧ w.heap.pool.length ≤ 16) (hN : N ≤ 16384)
    (hlt : nextFree w.stackHeap.map < stackLimit)
    (hvacant : ∀ n < 4, (pte w w.kernel.root (stackPage (nextFree w.stackHeap.map) n)).p = false) :
    ∃ w' i phys, stackKmalloc w = some (w', i, phys) ∧ Stock P R S N c w' ∧
      w'.heap.pool.length = 16 := by
  obtain ⟨i, hi⟩ : ∃ i, i = nextFree w.stackHeap.map := ⟨_, rfl⟩
  rw [← hi] at hlt hvacant
  have hst0 : Stock P R S N (c + 52 - w.heap.pool.length) w.stacked := h.withStackHeap _
  have hpool0 : w.stacked.heap.pool = w.heap.pool := rfl
  -- the first page, and then the others
  obtain ⟨w₁, phys, hfirst, hst1, hpool1, -⟩ := mapPage_total
    (hst0.mono (by rw [hpool0])) ⟨.inl hpool.1, hpool.2⟩ hst0.ready.sound.kernel
    (stackPage_accepts hlt (by omega)) (hvacant 0 (by omega))
    (stackPage_apart hN hlt (by omega))
  have hroom := hst1.blocks
  obtain ⟨hadds, -⟩ := mapStackPage_adds hst0.ready.sound hfirst (by omega)
    (stackPage_apart hN hlt (by omega))
  have hpages : stackPages i = stackPage i 0 :: (stackPages i).tail := rfl
  have hpair := stackPages_pairwise (r := w₁.kernel.root) hlt
  rw [hpages, List.pairwise_cons] at hpair
  obtain ⟨w2, hrest, hst2, hpool2⟩ := mapStackPages_total hst1 hpool1
    hpair.2 fun v hv => by
      obtain ⟨n, hn, hn0, rfl⟩ := mem_stackPages_tail hv
      refine ⟨stackPage_accepts hlt hn, stackPage_apart hN hlt hn, ?_⟩
      rw [hadds.kernel, hadds.same (stackPage_apart hN hlt hn) ?_]
      · exact hvacant n hn
      · intro y hy hs
        rw [mem_singleton.mp hy] at hs
        exact hn0 (slotOf_stackPage hlt hlt hn (by omega) hs).2
  refine ⟨{ w2 with stackHeap := { w2.stackHeap with
    usedBlockCount := w2.stackHeap.usedBlockCount + 1 } }, i, phys, ?_, hst2.withStackHeap _,
    hpool2⟩
  rw [stackPage_zero] at hfirst
  rw [hi] at hfirst hrest ⊢
  refine (congrArg (Option.bind · _) hfirst).trans ?_
  exact congrArg (Option.bind · _) hrest

/-! ## The pages -/

theorem Apart.of_private {r : Nat} {v : VAddr} (hN : N ≤ 16384) (hv : ¬ Shared v) :
    Apart N w r v := by
  intro b n hb hn
  refine slotOf_ne_of_shared hv (heapPage_shared hn ?_)
  rw [heapPage_toNat (by omega) hn]
  omega

section ClonePage

variable {C : Type} {pd c k : Nat} {s : World × (Nat → C)} {v : VAddr}

/-- A page that is there can be copied, to a frame of the stock. -/
theorem clonePage_total (h : Stock P R S N (k + 17) s.1) (hpool : s.1.heap.pool.length = 16)
    (hN : N ≤ 16384) (hpd : R pd) (hc : R c) (hv : ¬ Shared v)
    (hpc : slotOf pd v ≠ slotOf c v) (hvb : slotOf pd v ≠ slotOf pd bufferPage)
    (hcb : slotOf pd bufferPage ≠ slotOf c v) (hp : (pte s.1 pd v).p = true)
    (haccept : Accepts v (pte s.1 pd v).getAttributes) (hnew : (pte s.1 c v).p = false)
    (hbuf : (pte s.1 pd bufferPage).p = false) :
    ∃ s' f l, clonePage pd c s (pte s.1 pd v) v = some s' ∧ P f l ∧
      (pte s'.1 c v).base = f % 2 ^ 40 ∧
      Supply (fun f l => Named f l ∧ P f l) 1 s'.1.frames := by
  have hdefer : ¬ (pte s.1 pd v).getAttributes.testBit 3 = true := by
    rw [getAttributes_defer]
    rintro ⟨hc, -⟩
    rw [hp] at hc
    cases hc
  obtain ⟨w₁, a, hpage, hst1, hpool1, hframe⟩ := mapPage_total (c := k + 8)
    (h.mono (by omega)) (by omega) hc haccept hnew (Apart.of_private hN hv)
  obtain ⟨f, l, hf, rfl⟩ := hframe.resolve_left hdefer
  obtain ⟨x, hx, hview⟩ := mapPage_private h.ready.sound hc hpage
  have hbuf1 : pte w₁ pd bufferPage = pte s.1 pd bufferPage := by
    rw [hview _ hpd buffer_not_shared, if_neg hcb]
  obtain ⟨w2, hto, hst2, -⟩ := mapPageTo_total (c := k)
    (f * PAGE_SIZE) (hst1.mono (by omega)) (by omega) hpd
    (show Accepts bufferPage (ATTR_RW + ATTR_NOEXEC) from ⟨by decide, by decide, by decide⟩)
    (by rw [hbuf1]; exact hbuf)
    (Apart.of_private hN buffer_not_shared)
  obtain ⟨y, hy, hview2⟩ := mapPageTo_private hst1.ready.sound hpd hto
  obtain ⟨-, rfl⟩ := hy buffer_not_shared
  have hdst : (pte w2 pd bufferPage).p = true := by
    rw [hview2 _ hpd buffer_not_shared, if_pos rfl]
    rfl
  have hsrc : (pte w2 pd v).p = true := by
    rw [hview2 _ hpd hv, if_neg hvb, hview _ hpd hv, if_neg hpc]
    exact hp
  obtain ⟨⟨w3, a'⟩, hunmap⟩ := isSome_iff_exists.mp
    (unmapPage_isSome hst2.ready.sound hpd hdst)
  have hclone : clonePage pd c s (pte s.1 pd v) v = some (w3, update s.2
      ((pte w2 pd bufferPage).base * PAGE_SIZE / PAGE_SIZE)
      (s.2 ((pte w2 pd v).base * PAGE_SIZE / PAGE_SIZE))) := by
    rw [clonePage, hpage]
    simp only [bind_eq_bind, bind_some, if_neg hdefer, hto,
      hst2.ready.sound.getPhysicalAddress_eq hpd, hdst, hsrc, if_true, hunmap]
  refine ⟨_, f, l, hclone, hf, ?_, ?_⟩
  have hbuffered := (buffered_spec hst1.ready.sound hpd hto hunmap).1
  · rw [hbuffered.view v hc hv hcb.symm, hview _ hc hv, if_pos rfl, (hx hv).2]
    show f * PAGE_SIZE / PAGE_SIZE % 2 ^ 40 = _
    rw [Nat.mul_div_cancel _ (by decide)]
  · obtain ⟨-, -, hwrite, -, -⟩ := unmapPage_spec hst2.ready.sound hpd hunmap
    rw [hwrite.frames]
    exact hst2.frames.mono (by omega)

end ClonePage

/-! ## The clone -/

section Clone

variable {C : Type} {pd n : Nat} {s : World × (Nat → C)}

/-- A process with one page can be cloned, and the copy is on a frame of the stock. -/
theorem clone_total (h : Stock P R S N 60 s.1) (hpool : s.1.heap.pool.length = 16)
    (hN : N ≤ 16384) (hpd : R pd) (hn : n < lowerPages)
    (hp : (pte s.1 pd (userPage n)).p = true)
    (haccept : Accepts (userPage n) (pte s.1 pd (userPage n)).getAttributes)
    (honly : ∀ m < lowerPages, m ≠ n → (pte s.1 pd (userPage m)).isValid = false)
    (hbuf : (pte s.1 pd bufferPage).p = false)
    (hlt : nextFree s.1.stackHeap.map < stackLimit)
    (hvacant : ∀ i < 4,
      (pte s.1 s.1.kernel.root (stackPage (nextFree s.1.stackHeap.map) i)).p = false) :
    ∃ s' newPd stack f l, clone s pd = some (s', newPd, stack) ∧ P f l ∧
      (pte s'.1 newPd.root (userPage n)).base = f % 2 ^ 40 ∧
      Supply (fun f l => Named f l ∧ P f l) 1 s'.1.frames := by
  obtain ⟨w₁, newPd, hkernel, hst1, hlow, hhigh⟩ := h.mapKernel (by omega)
  have hmap := mapKernel_spec h.ready.sound hkernel
  have hkr : w₁.kernel = s.1.kernel := hmap.ext.kernel
  have hstackHeap : w₁.stackHeap = s.1.stackHeap := hmap.grown.stackHeap
  have hroom := hst1.blocks
  obtain ⟨w2, i, phys, hstack, hst2, hpool2⟩ := stackKmalloc_total (c := 17) (hst1.mono (by omega))
    (by omega) hN (by rw [hstackHeap]; exact hlt) (fun i hi => by
      rw [hstackHeap, hkr, hmap.grown.steps.pte_eq h.ready.sound.kernel
        ((stackPage_apart hN hlt hi).not_heapPage hkr (by omega))]
      exact hvacant i hi)
  have hne : pd ≠ newPd.root := by
    rintro rfl
    have hlive := h.ready.sound.rootLive hpd
    rw [hmap.new] at hlive
    cases hlive
  have hspec := stackKmalloc_spec hmap.sound hstack
  -- what the parent and the child have by then
  have hparent : ∀ v, ¬ Shared v → pte w2 pd v = pte s.1 pd v := by
    intro v hv
    rw [hspec.view v (.inl hpd) hv, hmap.grown.steps.pte_private hpd hv]
  have hchild : ∀ v, ¬ Shared v → pte w2 newPd.root v = .zero := by
    intro v hv
    rw [hspec.view _ (.inr rfl) hv, hmap.view, if_neg hv]
  obtain ⟨s', f, l, hpage, hf, hbase, hleft⟩ := clonePage_total (s := (w2, s.2)) hst2 hpool2 hN (.inl hpd) (.inr rfl) (lower_not_shared hn)
    (parent_ne_child hne hn _) (userPage_ne_buffer hn pd pd) (parent_ne_child hne hn _)
    (by rw [hparent _ (lower_not_shared hn)]; exact hp)
    (by rw [hparent _ (lower_not_shared hn)]; exact haccept)
    (by rw [hchild _ (lower_not_shared hn)]; rfl)
    (by rw [hparent _ buffer_not_shared]; exact hbuf)
  -- the loop does nothing but this
  have hall : forEachUserPage (fun s => World.tables s.1) (clonePage pd newPd.root) pd (w2, s.2)
      = some s' := by
    rw [forEach_clonePage_eq hne hst2.ready.sound (.inl hpd) (.inr rfl),
      foldlM_range_one hn fun m hm hmn x => ?_]
    · rw [visit, pageEntry_eq_pte, if_pos ?_]
      · exact hpage
      · rw [hparent _ (lower_not_shared hn), Entry.isValid, hp]
        rfl
    · rw [visit, pageEntry_eq_pte, hparent _ (lower_not_shared hm), honly m hm hmn]
      rfl
  refine ⟨s', newPd, i, f, l, ?_, hf, hbase, hleft⟩
  rw [clone, hkernel]
  simp only [bind_eq_bind, bind_some, hstack, hall]

end Clone

end Flix.Paging

import Flix.Paging.PageHeap

/-!
# The heap of kernel stacks

`PageHeap<4, 0, 0>`. It has neither a pool nor static blocks, and its pages come from
the kernel directory as anybody's do: to map one may take blocks of the other heap. The
two heaps stay out of each other's way as long as the one below does not grow into the
addresses of this one, that is below `0xffffffffe8000000`.
-/

namespace Flix.Paging

open Function Radix Traced

variable {w w₁ w' : World} {R : Nat → Prop} {S N : Nat} {held taken : List (Nat × Nat)}

/-! ## Addresses -/

/-- Page `n` of stack `b`. -/
def stackPage (b n : Nat) : VAddr := stackToPtr b + BitVec.ofNat 64 (n * 0x1000)

/-- How many stacks there are addresses for. -/
def stackLimit : Nat := 24576

variable {b r : Nat} {v : VAddr} {l : List VAddr}

theorem stackPage_toNat {n : Nat} (hb : b < stackLimit) (hn : n < 4) :
    (stackPage b n).toNat = 0xffffffffe8000000 + b * 16384 + n * 4096 := by
  have hbase : stackPageHeapBase.toNat = 0xffffffffe8000000 := rfl
  rw [stackLimit] at hb
  simp only [stackPage, stackToPtr, BitVec.toNat_add, BitVec.toNat_ofNat, PAGE_SIZE]
  omega

theorem stackPage_zero (b : Nat) : stackPage b 0 = stackToPtr b := BitVec.add_zero _

theorem mem_stackPages : v ∈ stackPages b ↔ ∃ n < 4, v = stackPage b n := by
  rw [stackPages, mem_map]
  constructor
  · rintro ⟨n, hn, rfl⟩
    exact ⟨n, mem_range.mp hn, rfl⟩
  · rintro ⟨n, hn, rfl⟩
    exact ⟨n, mem_range.mpr hn, rfl⟩

theorem mem_stackPages_tail (hv : v ∈ (stackPages b).tail) :
    ∃ n < 4, n ≠ 0 ∧ v = stackPage b n := by
  have htail : (stackPages b).tail = [stackPage b 1, stackPage b 2, stackPage b 3] := rfl
  rw [htail] at hv
  simp only [mem_cons, not_mem_nil, or_false] at hv
  rcases hv with rfl | rfl | rfl
  · exact ⟨1, by omega, by omega, rfl⟩
  · exact ⟨2, by omega, by omega, rfl⟩
  · exact ⟨3, by omega, by omega, rfl⟩

theorem slotOf_stackPage {b' n n' r' : Nat} (hb : b < stackLimit) (hb' : b' < stackLimit)
    (hn : n < 4) (hn' : n' < 4) (hs : slotOf r (stackPage b n) = slotOf r' (stackPage b' n')) :
    b = b' ∧ n = n' := by
  have hpage := path_eq_iff.mp (slotOf_eq_iff.mp hs).1
  rw [pageOf, pageOf, stackPage_toNat hb hn, stackPage_toNat hb' hn', PAGE_SIZE] at hpage
  rw [stackLimit] at hb hb'
  omega

section Limit

variable {b n : Nat} (hN : N ≤ 16384) (hb : b < stackLimit) (hn : n < 4)
include hN hb hn

theorem stackPage_away : Away N (stackPage b n) := by
  intro c hc hpath
  simp only [path, region, index, stackPage_toNat hb hn, List.cons.injEq] at hpath
  rw [stackLimit] at hb
  omega

theorem stackPage_apart {r : Nat} : Apart N w r (stackPage b n) := by
  intro c m hc hm hs
  exact (stackPage_away hN hb hn).slotOf_ne (by omega) hc hm hs.symm

end Limit

/-! ## Pages for a stack -/

/-- Pages of the kernel directory are mapped at the addresses in `l`, besides pages of the other
heap. -/
structure Adds (N : Nat) (l : List VAddr) (w w' : World) : Prop where
  kernel : w'.kernel = w.kernel
  stackHeap : w'.stackHeap = w.stackHeap
  frames : w.frames.length ≤ w'.frames.length
  p : ∀ {v}, Apart N w w.kernel.root v → (pte w w.kernel.root v).p = true ∨ v ∈ l →
    (pte w' w.kernel.root v).p = true
  same : ∀ {v}, Apart N w w.kernel.root v →
    (∀ y ∈ l, slotOf w.kernel.root v ≠ slotOf w.kernel.root y) →
    pte w' w.kernel.root v = pte w w.kernel.root v

theorem mapPageTo_stackHeap {paddr attr : Nat} (h : Sound w R S) (hr : R r)
    (hm : mapPageTo w r v paddr attr = some w') : w'.stackHeap = w.stackHeap := by
  obtain ⟨-, w₁, w2, hgrown, -, hwrite, href, -, -⟩ := mapPageTo_spec h hr hm
  exact href.grown.stackHeap.trans (hwrite.stackHeap.trans hgrown.stackHeap)

theorem mapPage_stackHeap {attr a : Nat} (h : Sound w R S) (hr : R r)
    (hm : mapPage w r v attr = some (w', a)) : w'.stackHeap = w.stackHeap := by
  rcases mapPage_cases hm with ⟨-, rfl, hto⟩ | ⟨-, frames, f, -, -, rfl, hto⟩
  · exact mapPageTo_stackHeap h hr hto
  · have hframe := mapPageTo_stackHeap (h.withFrames frames) hr hto
    exact hframe

/-- One page more. -/
theorem mapStackPage_adds {a : Nat} (h : Sound w R S)
    (hm : mapStackPage w v = some (w', a)) (hroom : w'.heap.map.length ≤ N)
    (hv : Apart N w w.kernel.root v) : Adds N [v] w w' ∧ At w' v a := by
  have hsteady := mapPage_steady h h.kernel hm
  have hk : w'.kernel = w.kernel := hsteady.ext.kernel
  obtain ⟨e, he, hview⟩ := mapPage_view h h.kernel hm
  obtain ⟨-, rfl⟩ := he (hv.not_heapPage hk hroom)
  have hnew : pte w' w.kernel.root v
      = setAttributes 5 ((pte w w.kernel.root v).present a) := by
    rw [hview v h.kernel (hv.not_heapPage hk hroom), if_pos rfl]
    rfl
  refine ⟨⟨hk, mapPage_stackHeap h h.kernel hm, hsteady.frames_le, fun {y} hy hp => ?_,
    fun {y} hy hne => ?_⟩, ?_, ?_⟩
  · rw [hview y h.kernel (hy.not_heapPage hk hroom)]
    split
    · rfl
    · rename_i hs
      rcases hp with hp | hmem
      · exact hp
      · rw [mem_singleton.mp hmem] at hs
        exact absurd rfl hs
  · rw [hview y h.kernel (hy.not_heapPage hk hroom), if_neg (hne v mem_cons_self)]
  · rw [hk, hnew]
    rfl
  · rcases mapPage_cases hm with ⟨hdefer, -⟩ | ⟨-, frames, f, hfree, -, rfl, hto⟩
    · exact absurd hdefer (by decide)
    · refine ⟨f, rfl, ?_, .inr ?_⟩
      · rw [hk, hnew]
        exact congrArg (· % 2 ^ 40) (Nat.mul_div_cancel _ (by decide))
      · have hused := (getFreePage_spec hfree).2 f
        have hle := (mapPageTo_steady (h.withFrames frames) h.kernel hto).frames_le
        exact (getElem?_lt (hused.mpr (.inr rfl))).trans_le hle

theorem Apart.congr (h : Apart N w r v) (hk : w'.kernel = w.kernel) : Apart N w' r v := by
  intro b n hb hn
  rw [hk]
  exact h b n hb hn

theorem Adds.trans {l' : List VAddr} (h : Adds N l w w₁) (h' : Adds N l' w₁ w') :
    Adds N (l ++ l') w w' := by
  have hk := h.kernel
  refine ⟨h'.kernel.trans hk, h'.stackHeap.trans h.stackHeap, h.frames.trans h'.frames,
    fun {v} hv hp => ?_, fun {v} hv hne => ?_⟩
  · rw [← hk]
    refine h'.p (by rw [hk]; exact hv.congr hk) ?_
    rw [mem_append] at hp
    rw [hk]
    rcases hp with hp | hp | hp
    · exact .inl (h.p hv (.inl hp))
    · exact .inl (h.p hv (.inr hp))
    · exact .inr hp
  · have hold := h.same hv fun y hy => hne y (mem_append_left _ hy)
    rw [← hold, ← hk]
    refine h'.same (by rw [hk]; exact hv.congr hk) fun y hy => ?_
    rw [hk]
    exact hne y (mem_append_right _ hy)

theorem mapStackPages_length (h : Sound w R S)
    (hm : l.foldlM (fun w v => (mapStackPage w v).map Prod.fst) w = some w') :
    w.heap.map.length ≤ w'.heap.map.length := by
  induction l generalizing w with
  | nil =>
    cases hm
    exact le_rfl
  | cons y l ih =>
    obtain ⟨w₁, hbody, hm⟩ := of_bind hm
    obtain ⟨⟨w2, a⟩, hpage, rfl⟩ := map_eq_some_iff.mp hbody
    have hsteady := mapPage_steady h h.kernel hpage
    exact hsteady.length_le.trans (ih hsteady.sound hm)

/-- All the pages of a list. -/
theorem mapStackPages_adds (h : Books R S N w held)
    (hm : l.foldlM (fun w v => (mapStackPage w v).map Prod.fst) w = some w')
    (hroom : w'.heap.map.length ≤ N) (hl : ∀ v ∈ l, Apart N w w.kernel.root v ∧ Away N v) :
    Books R S N w' held ∧ Adds N l w w' := by
  induction l generalizing w with
  | nil =>
    cases hm
    refine ⟨h, rfl, rfl, le_rfl, fun _ hp => ?_, fun _ _ => rfl⟩
    rcases hp with hp | hp
    · exact hp
    · cases hp
  | cons y l ih =>
    obtain ⟨w₁, hbody, hm⟩ := of_bind hm
    obtain ⟨⟨w2, a⟩, hpage, rfl⟩ := map_eq_some_iff.mp hbody
    have h2 := (mapPage_steady h.sound h.sound.kernel hpage).sound
    have hroom2 := (mapStackPages_length h2 hm).trans hroom
    obtain ⟨hapart, haway⟩ := hl y mem_cons_self
    obtain ⟨hadds, -⟩ := mapStackPage_adds h.sound hpage hroom2 hapart
    have hbooks := h.mapPage h.sound.kernel haway hpage hroom2
    obtain ⟨hbooks', hadds'⟩ := ih hbooks hm fun v hv => by
      obtain ⟨hapart, haway⟩ := hl v (mem_cons_of_mem _ hv)
      exact ⟨by rw [hadds.kernel]; exact hapart.congr hadds.kernel, haway⟩
    exact ⟨hbooks', hadds.trans hadds'⟩

/-! ## The books -/

theorem Books.withStackHeap (h : Books R S N w held) (stackHeap : StackPageHeap) :
    Books R S N { w with stackHeap := stackHeap } held :=
  h.keep (h.sound.of_tables rfl rfl rfl fun _ hx => hx) rfl rfl rfl rfl rfl le_rfl
    (fun _ _ _ _ => rfl)
    (fun hx => ⟨(h.fresh hx).noTable, (h.fresh hx).used, (h.fresh hx).noPool⟩) h.nodup
    (fun hx => h.live { hx with }) id

/-- What holds of the stacks between two calls. -/
structure StackBooks (w : World) (taken : List (Nat × Nat)) : Prop where
  room : w.stackHeap.map.length ≤ stackLimit
  live : ∀ b : Nat, w.stackHeap.map[b]? = some true ↔ b ∈ taken.map Prod.fst
  nodup : (taken.map Prod.fst).Nodup
  count : w.stackHeap.usedBlockCount = w.stackHeap.map.count true
  mapped : ∀ {b n}, n < 4 → w.stackHeap.map[b]? = some true →
    (pte w w.kernel.root (stackPage b n)).p = true
  vacant : ∀ {b n}, b < stackLimit → n < 4 → w.stackHeap.map[b]? ≠ some true →
    (pte w w.kernel.root (stackPage b n)).p = false
  phys : ∀ {x}, x ∈ taken → At w (stackPage x.1 0) x.2

section StackBooks

variable (h : StackBooks w taken)
include h

theorem StackBooks.lt {b : Nat} (hb : w.stackHeap.map[b]? = some true) : b < stackLimit :=
  (getElem?_lt hb).trans_le h.room

/-- A step that the stacks do not see. -/
theorem StackBooks.keep (hs : w'.stackHeap = w.stackHeap) (hk : w'.kernel = w.kernel)
    (hf : w.frames.length ≤ w'.frames.length)
    (hpte : ∀ b n, b < stackLimit → n < 4 →
      pte w' w.kernel.root (stackPage b n) = pte w w.kernel.root (stackPage b n)) :
    StackBooks w' taken := by
  refine ⟨by rw [hs]; exact h.room, by rw [hs]; exact h.live, h.nodup, by rw [hs]; exact h.count,
    ?_, ?_, ?_⟩
  · intro b n hn hb
    rw [hs] at hb
    rw [hk, hpte b n (h.lt hb) hn]
    exact h.mapped hn hb
  · intro b n hb hn hfree
    rw [hs] at hfree
    rw [hk, hpte b n hb hn]
    exact h.vacant hb hn hfree
  · intro x hx
    have hused := (h.live x.1).mpr (mem_map.mpr ⟨x, hx, rfl⟩)
    exact (h.phys hx).keep (by rw [hk]; exact hpte _ _ (h.lt hused) (by omega)) hf

theorem StackBooks.grown (hw : Sound w R S) (hg : Grown R w w') (hroom : w'.heap.map.length ≤ N)
    (hN : N ≤ 16384) : StackBooks w' taken := by
  have hk := hg.steps.kernel_eq
  refine h.keep hg.stackHeap hk hg.steps.frames_le fun b n hb hn => ?_
  exact hg.steps.pte_eq hw.kernel ((stackPage_apart hN hb hn).not_heapPage hk hroom)

/-- A new stack. -/
theorem StackBooks.kmalloc {i phys : Nat} (hb : Books R S N w held)
    (hm : stackKmalloc w = some (w', i, phys)) (hroom : w'.heap.map.length ≤ N)
    (hN : N ≤ 16384) :
    Books R S N w' held ∧ StackBooks w' ((i, phys) :: taken) ∧ i = nextFree w.stackHeap.map ∧
      w'.stackHeap.map = (withRoom w.stackHeap.map).set i true ∧
      w'.stackHeap.usedBlockCount = w.stackHeap.usedBlockCount + 1 := by
  obtain ⟨hle, -, hlen, -⟩ := nextFree_spec w.stackHeap.map
  obtain ⟨hi, w₁, w2, hfirst, hfold, rfl⟩ := stackKmalloc_cases hm
  rw [← stackPage_zero] at hfirst
  have hb0 : Books R S N w.stacked held := hb.withStackHeap _
  -- there is an address for it
  have hlt : i < stackLimit := by
    have hhigh := mapPage_high hb0.sound hb0.sound.kernel rfl hfirst
    have hroom := h.room
    refine lt_of_le_of_ne (by omega) ?_
    rintro rfl
    exact absurd hhigh (by decide)
  have h1 := (mapPage_steady hb0.sound hb0.sound.kernel hfirst).sound
  have hroom1 : w₁.heap.map.length ≤ N := (mapStackPages_length h1 hfold).trans hroom
  obtain ⟨hadds1, hat⟩ := mapStackPage_adds hb0.sound hfirst hroom1
    (stackPage_apart hN hlt (by omega))
  have hb1 := hb0.mapPage hb0.sound.kernel (stackPage_away hN hlt (by omega)) hfirst hroom1
  obtain ⟨hb2, hadds2⟩ := mapStackPages_adds hb1 hfold hroom fun v hv => by
    obtain ⟨n, hn, -, rfl⟩ := mem_stackPages_tail hv
    exact ⟨stackPage_apart hN hlt hn, stackPage_away hN hlt hn⟩
  have hadds : Adds N (stackPages i) w.stacked w2 := by
    exact hadds1.trans hadds2
  have hk : w2.kernel = w.kernel := hadds.kernel
  have hmap : w2.stackHeap.map = (withRoom w.stackHeap.map).set i true := by
    rw [hadds.stackHeap, hi]
    rfl
  have hcount : w2.stackHeap.usedBlockCount = w.stackHeap.usedBlockCount := by
    rw [hadds.stackHeap]
    rfl
  have hbits : ∀ b : Nat, w2.stackHeap.map[b]? = some true ↔
      w.stackHeap.map[b]? = some true ∨ b = i := by
    rw [hmap, hi]
    exact used_take w.stackHeap.map
  have hnew : w.stackHeap.map[i]? ≠ some true := hi ▸ nextFree_unused w.stackHeap.map
  -- the pages of the other stacks stay as they are
  have hother : ∀ {b n}, b < stackLimit → n < 4 → b ≠ i →
      pte w2 w2.kernel.root (stackPage b n) = pte w w.kernel.root (stackPage b n) := by
    intro b n hb hn hne
    rw [hk]
    refine hadds.same (stackPage_apart hN hb hn) fun y hy hs => ?_
    obtain ⟨m, hm, rfl⟩ := mem_stackPages.mp hy
    exact hne (slotOf_stackPage hb hlt hn hm hs).1
  refine ⟨hb2.withStackHeap _, ⟨?_, ?_, ?_, ?_, ?_, ?_, ?_⟩, hi, ?_, ?_⟩
  · have hroom := h.room
    rw [hmap, List.length_set]
    omega
  · intro b
    rw [List.map_cons, mem_cons, ← h.live]
    exact (hbits b).trans or_comm
  · refine nodup_cons.mpr ⟨fun hmem => ?_, h.nodup⟩
    exact hnew ((h.live i).mpr hmem)
  · rw [hcount, hmap, hi, count_take, h.count]
  · intro b n hn hused
    show (pte w2 w2.kernel.root (stackPage b n)).p = true
    by_cases hbi : b = i
    · subst hbi
      rw [hk]
      exact hadds.p (stackPage_apart hN hlt hn) (.inr (mem_stackPages.mpr ⟨n, hn, rfl⟩))
    · have hused := ((hbits b).mp hused).resolve_right hbi
      rw [hother (h.lt hused) hn hbi]
      exact h.mapped hn hused
  · intro b n hb hn hfree
    obtain ⟨hfree, hbi⟩ := not_or.mp ((not_congr (hbits b)).mp hfree)
    show (pte w2 w2.kernel.root (stackPage b n)).p = false
    rw [hother hb hn hbi]
    exact h.vacant hb hn hfree
  · intro x hx
    rcases mem_cons.mp hx with rfl | hx
    · -- the other pages are not where the first one is
      refine hat.keep ?_ hadds2.frames
      rw [hadds2.kernel]
      refine hadds2.same (stackPage_apart hN hlt (by omega)) fun y hy hs => ?_
      obtain ⟨n, hn, hne, rfl⟩ := mem_stackPages_tail hy
      exact hne (slotOf_stackPage hlt hlt (by omega) hn hs).2.symm
    · have hused := (h.live x.1).mpr (mem_map.mpr ⟨x, hx, rfl⟩)
      have hxi : x.1 ≠ i := fun hc => hnew (hc ▸ hused)
      have hkeep : At w2 (stackPage x.1 0) x.2 :=
        (h.phys hx).keep (hother (h.lt hused) (by omega) hxi) hadds.frames
      exact ⟨hkeep.p, hkeep.frame⟩
  · exact hmap
  · exact congrArg (· + 1) hcount

end StackBooks

/-! ## Giving a stack back -/

theorem unmapAndFrees_heap
    (hu : (l.foldlM unmapAndFree w : Traced Call World).result = some w') : w'.heap = w.heap := by
  induction l generalizing w with
  | nil =>
    cases hu
    rfl
  | cons y l ih =>
    rw [foldlM_cons, Traced.result_bind] at hu
    obtain ⟨w₁, hu1, hu⟩ := of_bind hu
    exact (ih hu).trans (unmapAndFree_heap hu1)

theorem unmapAndFrees_spec {tot : Prop} (h : Sound w R S) (ho : Owned R w)
    (hl : l.Pairwise fun y z => slotOf w.kernel.root z ≠ slotOf w.kernel.root y)
    (htot : tot → w.frames.length ≤ 2 ^ 40 ∧ ∀ v ∈ l, (pte w w.kernel.root v).p = true) :
    Spec tot (Safe R)
      (fun w' => Sound w' R S ∧ Owned R w' ∧ Torn R (fun _ => False) (· ∈ l) w w')
      (l.foldlM unmapAndFree w) := by
  induction l generalizing w with
  | nil =>
    refine .pure ⟨h, ho, (Torn.refl w).congr (fun _ => Iff.rfl) fun v => ?_⟩
    exact iff_false_intro not_mem_nil
  | cons y l ih =>
    obtain ⟨hy, hl⟩ := List.pairwise_cons.mp hl
    refine (unmapAndFree_spec h ho fun ht =>
      ⟨(htot ht).1, (htot ht).2 y mem_cons_self⟩).bind ?_
    rintro w₁ - ⟨h1, ho1, htorn1⟩
    refine (ih h1 ho1 (htorn1.kernel ▸ hl) fun ht => ⟨htorn1.framesLength ▸ (htot ht).1, ?_⟩).mono
      ?_
    · intro v hv
      rw [htorn1.kernel]
      rcases htorn1.view v h.kernel with hview | ⟨-, z, rfl, hs⟩
      · rw [hview]
        exact (htot ht).2 v (mem_cons_of_mem _ hv)
      · exact absurd hs (hy v hv)
    · rintro w2 ⟨h2, ho2, htorn2⟩
      refine ⟨h2, ho2, (htorn1.trans htorn2 h.kernel).congr (fun _ => (or_self_iff).symm) ?_⟩
      exact fun v => mem_cons

theorem stackPages_pairwise (hb : b < stackLimit) :
    (stackPages b).Pairwise fun y z => slotOf r z ≠ slotOf r y := by
  rw [stackPages, List.pairwise_map]
  refine (List.pairwise_lt_range).imp_of_mem ?_
  intro m n hm hn hlt hs
  have hnm := (slotOf_stackPage hb hb (mem_range.mp hn) (mem_range.mp hm) hs).2
  omega

/-- What giving a stack back leaves. -/
structure StackFreed (R : Nat → Prop) (S b : Nat) (w w' : World) : Prop where
  sound : Sound w' R S
  owned : Owned R w'
  torn : ∃ w₁, Torn R (fun _ => False) (· ∈ stackPages b) w w₁ ∧ w₁.heap = w.heap ∧
    w' = { w₁ with stackHeap := { w.stackHeap with
      usedBlockCount := w.stackHeap.usedBlockCount - 1
      map := w.stackHeap.map.set b false } }

theorem stackKfree_spec {tot : Prop} (h : Sound w R S) (ho : Owned R w)
    (hb : b < stackLimit) (htot : tot → w.frames.length ≤ 2 ^ 40 ∧
      w.stackHeap.map[b]? = some true ∧ ∀ n < 4, (pte w w.kernel.root (stackPage b n)).p = true) :
    Spec tot (Safe R) (StackFreed R S b w) (stackKfree w b) := by
  refine (Spec.assert fun ht => (htot ht).2.1).bind fun _ _ => ?_
  have hpages := unmapAndFrees_spec h ho (stackPages_pairwise hb) fun ht : tot =>
    ⟨(htot ht).1, fun v hv => by
      obtain ⟨n, hn, rfl⟩ := mem_stackPages.mp hv
      exact (htot ht).2.2 n hn⟩
  -- the loop is over the pages alone
  have hloop : Spec tot (Safe R) (fun w₁ => (Sound w₁ R S ∧ Owned R w₁ ∧
      Torn R (fun _ => False) (· ∈ stackPages b) w w₁) ∧ w₁.heap = w.heap)
      ((stackPages b).foldlM unmapAndFree w) :=
    ⟨hpages.calls, fun hw => ⟨hpages.post hw, unmapAndFrees_heap hw⟩, hpages.total⟩
  refine hloop.bind ?_
  rintro w₁ - ⟨⟨h1, ho1, htorn⟩, hheap⟩
  refine .pure ⟨h1.of_tables rfl rfl rfl fun _ hx => hx,
    ho1.of_view (fun v hr _ => ⟨_, hr, rfl, rfl⟩) rfl, w₁, htorn, hheap, ?_⟩
  rw [htorn.stackHeap]

/-- A stack goes. -/
theorem StackBooks.kfree {x : Nat × Nat} (h : StackBooks w taken) (hb : Books R S N w held)
    (hN : N ≤ 16384) (hx : x ∈ taken) (hfreed : StackFreed R S x.1 w w') :
    Books R S N w' held ∧ StackBooks w' (taken.filter fun y => y.1 ≠ x.1) := by
  have hused := (h.live x.1).mpr (mem_map.mpr ⟨x, hx, rfl⟩)
  obtain ⟨w₁, htorn, hheap, rfl⟩ := hfreed.torn
  have hk := htorn.kernel
  -- only the pages of this stack are gone
  have hsame : ∀ {v}, (∀ y ∈ stackPages x.1, slotOf w.kernel.root v ≠ slotOf w.kernel.root y) →
      pte w₁ w.kernel.root v = pte w w.kernel.root v := by
    intro v hv
    rcases htorn.view v hb.sound.kernel with hview | ⟨-, y, hy, hs⟩
    · exact hview
    · exact absurd hs (hv y hy)
  have hother : ∀ {b n}, b < stackLimit → n < 4 → b ≠ x.1 →
      pte w₁ w₁.kernel.root (stackPage b n) = pte w w.kernel.root (stackPage b n) := by
    intro b n hb hn hne
    rw [hk]
    refine hsame fun y hy hs => ?_
    obtain ⟨m, hm, rfl⟩ := mem_stackPages.mp hy
    exact hne (slotOf_stackPage hb (h.lt hused) hn hm hs).1
  have hbits : ∀ b : Nat, (w.stackHeap.map.set x.1 false)[b]? = some true ↔
      w.stackHeap.map[b]? = some true ∧ b ≠ x.1 := used_set_false w.stackHeap.map x.1
  have hmem : ∀ {y}, y ∈ taken.filter (fun y => y.1 ≠ x.1) ↔ y ∈ taken ∧ y.1 ≠ x.1 := by
    intro y
    rw [List.mem_filter, decide_eq_true_iff]
  refine ⟨?_, ?_, ?_, ?_, ?_, ?_, ?_, ?_⟩
  · refine Books.withStackHeap (w := w₁) (hb.keep (hfreed.sound.of_tables rfl rfl rfl fun _ hx => hx)
      (by rw [hheap]) (by rw [hheap]) (by rw [hheap]) hk htorn.start htorn.framesLength.ge ?_ ?_
      hb.nodup ?_ (by rw [hheap]; exact id)) _
    · intro b n hb' hn
      refine hsame fun y hy hs => ?_
      obtain ⟨m, hm, rfl⟩ := mem_stackPages.mp hy
      exact (stackPage_away hN (h.lt hused) hm).slotOf_ne (by omega) hb' hn hs
    · exact fun hx => htorn.fresh (hb.fresh hx) id
    · intro b hstray
      refine hb.live ⟨?_, ?_, fun hr hq => hstray.unreached hr ((htorn.follow_eq hr).trans hq)⟩
      · rw [← hheap]
        exact hstray.used
      · rw [← hheap]
        exact hstray.noPool
  · rw [List.length_set]
    exact h.room
  · intro b
    refine (hbits b).trans ?_
    rw [h.live]
    constructor
    · rintro ⟨hb, hbx⟩
      obtain ⟨y, hy, rfl⟩ := mem_map.mp hb
      exact mem_map.mpr ⟨y, hmem.mpr ⟨hy, hbx⟩, rfl⟩
    · intro hb
      obtain ⟨y, hy, rfl⟩ := mem_map.mp hb
      obtain ⟨hy, hyx⟩ := hmem.mp hy
      exact ⟨mem_map.mpr ⟨y, hy, rfl⟩, hyx⟩
  · exact h.nodup.sublist (List.filter_sublist.map _)
  · rw [count_clear hused, h.count]
  · intro b n hn hb
    obtain ⟨hb, hbx⟩ := (hbits b).mp hb
    show (pte w₁ w₁.kernel.root (stackPage b n)).p = true
    rw [hother (h.lt hb) hn hbx]
    exact h.mapped hn hb
  · intro b n hb hn hfree
    show (pte w₁ w₁.kernel.root (stackPage b n)).p = false
    by_cases hbx : b = x.1
    · exact htorn.unmapped (mem_stackPages.mpr ⟨n, hn, by rw [hbx]⟩)
    · rw [hother hb hn hbx]
      exact h.vacant hb hn fun hc => hfree ((hbits b).mpr ⟨hc, hbx⟩)
  · intro y hy
    obtain ⟨hy, hyx⟩ := hmem.mp hy
    have hlive := (h.live y.1).mpr (mem_map.mpr ⟨y, hy, rfl⟩)
    have hkeep : At w₁ (stackPage y.1 0) y.2 :=
      (h.phys hy).keep (hother (h.lt hlive) (by omega) hyx) htorn.framesLength.ge
    exact ⟨hkeep.p, hkeep.frame⟩

end Flix.Paging

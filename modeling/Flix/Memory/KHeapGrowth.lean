import Flix.Memory.KHeapRuns

/-!
# When the heap grows

A new page becomes a block by having its size written into it. Its `used` bit is
not written: the block is free if the page happens to hold a zero there, and when
it does not, `enlargeHeap` leaves a block that nobody has and that is in use.

The pages that are asked for are counted in 32 bits, and the heap is at the top of
the address space. `CanGrow` says that neither wraps; with a clean page it is all
that growth needs, and it needs all of it.
-/

namespace Flix.KHeap

open Bytes Tiling Runs

variable {pages : Mem} {h h' : Heap} {bs : List Nat} {size : Nat}

/-! ## What the loop leaves, whatever the pages hold -/

variable {m : Mem} {b p : Nat}

theorem setSize_keeps {m' : Mem} {n : Nat} (hs : setSize m b n = some m') :
    getUsed m' b = getUsed m b ∧ ∀ x < b, m' x = m x := by
  unfold setSize BLOCK_ALIGN BLOCK_ALIGN_SHIFT at hs
  obtain ⟨-, hs⟩ := of_assert hs
  cases hs
  refine ⟨?_, fun x hx => writeLE_outside (.inl hx)⟩
  unfold getUsed
  rw [readLE_writeLE_self]
  congr 1
  omega

/-- One turn: the last block stays when it is free, and otherwise the next one is the last. Nothing
is written before it. -/
theorem enlargeStep_cases (he : enlargeStep pages h = some h') :
    h'.heapEnd = (h.heapEnd + PAGE_SIZE) % 2 ^ 64 ∧ h.lastBlock ≤ h'.lastBlock ∧
    h'.heapStart = h.heapStart ∧
    (∀ x < h'.lastBlock, h'.mem x = mapPage pages h.mem h.heapEnd x) ∧
    ((getUsed (mapPage pages h.mem h.heapEnd) h.lastBlock = false ∧
        h'.lastBlock = h.lastBlock ∧ getUsed h'.mem h'.lastBlock = false) ∨
      getUsed (mapPage pages h.mem h.heapEnd) h.lastBlock = true) := by
  unfold enlargeStep at he
  simp only at he
  split at he
  · rename_i hu
    obtain ⟨-, he⟩ := of_assert he
    obtain ⟨-, he⟩ := of_assert he
    obtain ⟨m1, hm1, he⟩ := of_bind he
    obtain ⟨m2, hm2, he⟩ := of_bind he
    cases he
    exact ⟨rfl, Nat.le_add_right _ _, rfl, fun x hx => ((setSize_keeps hm2).2 x hx).trans
      ((setSize_keeps hm1).2 x hx), .inr hu⟩
  · rename_i hu
    obtain ⟨m1, hm1, he⟩ := of_bind he
    cases he
    have hfree := (Bool.not_eq_true _).mp hu
    obtain ⟨hused, hsame⟩ := setSize_keeps hm1
    exact ⟨rfl, le_rfl, rfl, hsame, .inl ⟨hfree, rfl, hused.trans hfree⟩⟩

/-- The loop moves the end, and the last block forward at most. -/
theorem enlargeLoop_bounds : ∀ {n : Nat} {h h' : Heap}, enlargeLoop pages n h = some h' →
    h.heapEnd < 2 ^ 64 →
    h'.heapEnd = (h.heapEnd + n * PAGE_SIZE) % 2 ^ 64 ∧ h.lastBlock ≤ h'.lastBlock ∧
      h'.heapStart = h.heapStart
  | 0, h, h', he, hlt => by
    cases he
    rw [Nat.zero_mul, Nat.add_zero, Nat.mod_eq_of_lt hlt]
    exact ⟨rfl, le_rfl, rfl⟩
  | n + 1, h, h', he, hlt => by
    obtain ⟨h1, hs, he⟩ := of_bind he
    obtain ⟨hend, hle, hstart, -⟩ := enlargeStep_cases hs
    obtain ⟨hend', hle', hstart'⟩ := enlargeLoop_bounds he (by rw [hend]; omega)
    refine ⟨?_, hle.trans hle', hstart'.trans hstart⟩
    rw [Nat.succ_mul]
    omega

/-- A free last block stays the last, as long as the pages come behind it. -/
theorem enlargeLoop_keeps_free : ∀ {n : Nat} {h h' : Heap}, enlargeLoop pages n h = some h' →
    getUsed h.mem h.lastBlock = false → h.lastBlock + 4 ≤ h.heapEnd →
    h.heapEnd + n * PAGE_SIZE < 2 ^ 64 → h'.lastBlock = h.lastBlock
  | 0, h, h', he, _, _, _ => by
    cases he
    rfl
  | n + 1, h, h', he, hfree, hlast, hend => by
    obtain ⟨h1, hs, he⟩ := of_bind he
    rw [Nat.succ_mul] at hend
    have hsame : getUsed (mapPage pages h.mem h.heapEnd) h.lastBlock = false := by
      rw [← hfree]
      exact getUsed_congr fun x _ h2 => mapPage_below (by omega)
    obtain ⟨hend1, -, -, -, ⟨-, hl, hfree1⟩ | hc⟩ := enlargeStep_cases hs
    · rw [Nat.mod_eq_of_lt (by omega)] at hend1
      rw [← hl]
      refine enlargeLoop_keeps_free he hfree1 ?_ ?_
      · rw [hl]
        omega
      · rw [hend1]
        omega
    · rw [hsame] at hc
      cases hc

/-! ## The contents of a new page -/

/-- What `enlargeHeap` is to leave for a request: a free last block, up to the end of the heap, in
which the request has room, so that `kmalloc` can go on. -/
structure Enlarged (size : Nat) (h : Heap) : Prop where
  free : getUsed h.mem h.lastBlock = false
  stop : h.lastBlock + getSize h.mem h.lastBlock = h.heapEnd
  room : size + HEADER_SIZE ≤ getSize h.mem h.lastBlock
  tiled : ∃ bs, Tiled h bs
  goesOn : (takeLast h (roundRequest size)).isSome

/-- The request with its header, rounded up, in numbers that do not wrap. -/
def exactRequest (size : Nat) : Nat :=
  (size + HEADER_SIZE + (BLOCK_ALIGN - 1)) / BLOCK_ALIGN * BLOCK_ALIGN

theorem roundRequest_eq (hlt : exactRequest size < 2 ^ 32) :
    roundRequest size = exactRequest size := by
  unfold exactRequest HEADER_SIZE BLOCK_ALIGN at hlt
  unfold roundRequest intAlignSup exactRequest HEADER_SIZE BLOCK_ALIGN
  omega

theorem exactRequest_le : exactRequest size ≤ getSize m b ↔ size + HEADER_SIZE ≤ getSize m b := by
  have hmod := getSize_mod m b
  unfold exactRequest HEADER_SIZE BLOCK_ALIGN at *
  omega

theorem exactRequest_min (h0 : size ≠ 0) :
    exactRequest size % BLOCK_ALIGN = 0 ∧ BLOCK_MIN_SIZE ≤ exactRequest size := by
  unfold exactRequest BLOCK_MIN_SIZE HEADER_SIZE BLOCK_ALIGN
  omega

theorem CanGrow.exactRequest_lt (hc : CanGrow h (exactRequest size)) :
    exactRequest size < 2 ^ 32 := by
  have hlt := hc.1
  unfold missingPages PAGE_SIZE at hlt
  omega

/-- The last block that the search has looked at is the last block. -/
theorem searchAll_exhausted {block : Nat} (ht : Tiled h bs)
    (hs : searchAll h size = some (.exhausted block)) :
    block = h.lastBlock ∧ ∀ c ∈ bs, ¬ Fits h.mem size c := by
  rcases searchAll_spec size ht with ⟨front, b, back, -, -, -, hs'⟩ | ⟨hno, hs'⟩
  · rw [hs, Search.at] at hs'
    split at hs' <;> cases hs'
  · rw [hs] at hs'
    cases hs'
    exact ⟨rfl, hno⟩

/-- Clean pages and room for them are enough. -/
theorem enlarged_of_clean (ht : Tiled h bs)
    (hno : ¬ Fits h.mem (exactRequest size) h.lastBlock) (h0 : size ≠ 0)
    (hclean : getUsed h.mem h.lastBlock = true → getUsed pages h.heapEnd = false)
    (hgrow : CanGrow h (exactRequest size)) :
    ∃ h', enlargeHeap pages h (neededPages h.mem h.lastBlock (exactRequest size)) = some h' ∧
      Enlarged size h' := by
  obtain ⟨halign, hmin⟩ := exactRequest_min h0
  obtain ⟨h', bs', he, hg, hroom⟩ := enlargeHeap_spec pages ht hmin hno hclean hgrow
  obtain ⟨h'', -, htake, -⟩ := takeLast_spec hg.tiled hg.free halign hmin hroom
  refine ⟨h', he, hg.free, hg.tiled.last_end, exactRequest_le.mp hroom, ⟨bs', hg.tiled⟩, ?_⟩
  rw [roundRequest_eq hgrow.exactRequest_lt, htake]
  rfl

section Loop

variable {n : Nat} (ht : Tiled h bs) (he : enlargeLoop pages n h = some h')
include ht he

/-- The last block ends at the end of the heap, so that the end has not wrapped. -/
theorem enlargeLoop_no_wrap (hlt : h.heapEnd < 2 ^ 64) (hn : n * PAGE_SIZE < 2 ^ 32)
    (hstop : h'.lastBlock + getSize h'.mem h'.lastBlock = h'.heapEnd) :
    h.heapEnd + n * PAGE_SIZE < 2 ^ 64 ∧ h'.heapEnd = h.heapEnd + n * PAGE_SIZE := by
  obtain ⟨hend, hle, -⟩ := enlargeLoop_bounds he hlt
  have hlast := ht.last_end
  have hsize := getSize_lt h.mem h.lastBlock
  omega

variable (hwrap : h.heapEnd + n * PAGE_SIZE < 2 ^ 64)
include hwrap

/-- Behind a used block, a page that reads as used is lost: it is the last block, and used, or there
is another one behind it. -/
theorem enlargeLoop_dirty (hu : getUsed h.mem h.lastBlock = true)
    (hdirty : getUsed pages h.heapEnd = true) (hn : n ≠ 0) :
    (n = 1 ∧ getUsed h'.mem h'.lastBlock = true ∧ h'.lastBlock = h.heapEnd) ∨
      h.heapEnd + PAGE_SIZE ≤ h'.lastBlock := by
  obtain ⟨n, rfl⟩ := Nat.exists_eq_succ_of_ne_zero hn
  rw [Nat.succ_mul] at hwrap
  obtain ⟨h1, e1, ht1, -, hend1, hl1, -, hu1⟩ := enlargeStep_new pages ht hu (by omega)
  rw [enlargeLoop, e1] at he
  have he : enlargeLoop pages n h1 = some h' := he
  cases n with
  | zero =>
    cases he
    exact .inl ⟨rfl, hu1.trans hdirty, hl1⟩
  | succ n =>
    -- the next page makes another block
    rw [Nat.succ_mul] at hwrap
    obtain ⟨h2, e2, -, -, hend2, hl2, -⟩ :=
      enlargeStep_new pages ht1 (hu1.trans hdirty) (by omega)
    rw [enlargeLoop, e2] at he
    obtain ⟨-, hle, -⟩ := enlargeLoop_bounds he (by omega)
    omega

/-- Otherwise the last block is the old one with the pages, or the pages. -/
theorem enlargeLoop_clean
    (hclean : getUsed h.mem h.lastBlock = true → n ≠ 0 ∧ getUsed pages h.heapEnd = false)
    (hstop : h'.lastBlock + getSize h'.mem h'.lastBlock = h.heapEnd + n * PAGE_SIZE) :
    getSize h'.mem h'.lastBlock = spare h + n * PAGE_SIZE := by
  have hlast := ht.last_end
  have hmin : 8 ≤ getSize h.mem h.lastBlock := ht.min _ ht.last_mem
  unfold spare
  cases hu : getUsed h.mem h.lastBlock with
  | false =>
    have hl := enlargeLoop_keeps_free he hu (by omega) hwrap
    show _ = getSize h.mem h.lastBlock + _
    omega
  | true =>
    obtain ⟨hn, hzero⟩ := hclean hu
    obtain ⟨n, rfl⟩ := Nat.exists_eq_succ_of_ne_zero hn
    rw [Nat.succ_mul] at hwrap hstop ⊢
    obtain ⟨h1, e1, -, -, hend1, hl1, -, hu1⟩ := enlargeStep_new pages ht hu (by omega)
    rw [enlargeLoop, e1] at he
    have hl := enlargeLoop_keeps_free he (hu1.trans hzero)
      (by unfold PAGE_SIZE at hend1; omega) (by omega)
    show _ = 0 + _
    omega

end Loop

theorem enlargeHeap_loop {n : Nat} (he : enlargeHeap pages h n = some h') :
    enlargeLoop pages n h = some h' ∧
      h'.lastBlock + getSize h'.mem h'.lastBlock = h'.heapEnd := by
  obtain ⟨h1, hloop, he⟩ := of_bind he
  obtain ⟨hstop, he⟩ := of_assert he
  cases he
  exact ⟨hloop, hstop⟩

/-- What there is when the last block has room for the request in the end. A page that reads as
used may still do, when nothing else is needed. -/
theorem enlargeHeap_room (ht : Tiled h bs) (hlt : h.heapEnd < 2 ^ 64) (hsize : size < 2 ^ 32)
    (hspare : spare h ≤ size)
    (hn : getUsed h.mem h.lastBlock = true → neededPages h.mem h.lastBlock size ≠ 0)
    (he : enlargeHeap pages h (neededPages h.mem h.lastBlock size) = some h')
    (hroom : size ≤ getSize h'.mem h'.lastBlock) :
    CanGrow h size ∧ (getUsed h.mem h.lastBlock = true → getUsed pages h.heapEnd = false ∨
      (getUsed h'.mem h'.lastBlock = true ∧ getSize h'.mem h'.lastBlock = PAGE_SIZE)) := by
  have hneeded := neededPages_eq hsize hspare
  have hpages : neededPages h.mem h.lastBlock size * PAGE_SIZE < 2 ^ 32 := by
    show _ % 2 ^ 32 / 0x1000 * 0x1000 < 2 ^ 32
    omega
  obtain ⟨n, hnn⟩ : ∃ n, n = neededPages h.mem h.lastBlock size := ⟨_, rfl⟩
  rw [← hnn] at he hneeded hpages hn
  obtain ⟨hloop, hstop⟩ := enlargeHeap_loop he
  obtain ⟨hwrap, hend⟩ := enlargeLoop_no_wrap ht hloop hlt hpages hstop
  have hlast := getSize_lt h'.mem h'.lastBlock
  by_cases hclean : getUsed h.mem h.lastBlock = true → getUsed pages h.heapEnd = false
  · have hsum := enlargeLoop_clean ht hloop hwrap (fun hu => ⟨hn hu, hclean hu⟩)
    have hmissing : n = missingPages h size := by
      unfold missingPages PAGE_SIZE at *
      split at hneeded <;> omega
    refine ⟨?_, fun hu => .inl (hclean hu)⟩
    rw [CanGrow, ← hmissing]
    omega
  · simp only [Classical.not_imp, Bool.not_eq_false] at hclean
    obtain ⟨hu, hdirty⟩ := hclean
    have hs : spare h = 0 := if_pos hu
    have hmissing : n = missingPages h size := by
      have hne := hn hu
      split at hneeded
      · exact hneeded
      · exact absurd hneeded hne
    rcases enlargeLoop_dirty ht hloop hwrap hu hdirty (hn hu) with ⟨rfl, hused, hl⟩ | hc
    · rw [CanGrow, ← hmissing]
      refine ⟨⟨by omega, by omega⟩, fun _ => .inr ⟨hused, ?_⟩⟩
      omega
    · unfold missingPages PAGE_SIZE at *
      omega

/-- And they are needed. -/
theorem clean_of_enlarged (ht : Tiled h bs) (hlt : h.heapEnd < 2 ^ 64)
    (hno : ¬ Fits h.mem (roundRequest size) h.lastBlock)
    (he : enlargeHeap pages h (neededPages h.mem h.lastBlock (roundRequest size)) = some h')
    (hE : Enlarged size h') :
    (getUsed h.mem h.lastBlock = true → getUsed pages h.heapEnd = false) ∧
      CanGrow h (exactRequest size) := by
  -- the block has the request in 32 bits, so that its rounding did not wrap
  have hroom := exactRequest_le.mpr hE.room
  have hsize := getSize_lt h'.mem h'.lastBlock
  have hround : roundRequest size = exactRequest size := roundRequest_eq (by omega)
  rw [hround] at hno he
  have hn : getUsed h.mem h.lastBlock = true →
      neededPages h.mem h.lastBlock (exactRequest size) ≠ 0 := by
    intro hu hzero
    rw [hzero] at he
    obtain rfl := Option.some.inj (enlargeHeap_loop he).1
    rw [hE.free] at hu
    cases hu
  obtain ⟨hgrow, hclean⟩ := enlargeHeap_room ht hlt (by omega) (spare_le hno) hn he hroom
  refine ⟨fun hu => (hclean hu).resolve_right ?_, hgrow⟩
  rintro ⟨hc, -⟩
  rw [hE.free] at hc
  cases hc

/-- **Growth depends on what the new page holds.** `enlargeHeap` leaves a free last block with room
for the request if and only if the last block was free before, or the first new page reads as free;
and the pages can be had at all. -/
theorem enlarging_needs_clean_page {block : Nat} (ht : Tiled h bs) (hlt : h.heapEnd < 2 ^ 64)
    (h0 : size ≠ 0) (hs : searchAll h (roundRequest size) = some (.exhausted block)) :
    (∃ h', enlargeHeap pages h (neededPages h.mem block (roundRequest size)) = some h' ∧
      Enlarged size h') ↔
    (getUsed h.mem h.lastBlock = true → getUsed pages h.heapEnd = false) ∧
      CanGrow h (exactRequest size) := by
  obtain ⟨rfl, hno⟩ := searchAll_exhausted ht hs
  have hlast := hno _ ht.last_mem
  constructor
  · rintro ⟨h', he, hE⟩
    exact clean_of_enlarged ht hlt hlast he hE
  · rintro ⟨hclean, hgrow⟩
    rw [roundRequest_eq hgrow.exactRequest_lt] at hlast ⊢
    exact enlarged_of_clean ht hlast h0 hclean hgrow

/-- All but the first block of the boot heap is taken at once. -/
def fullHeap : Option (Heap × Nat) := (init bootImage).bind fun h => kmalloc (fun _ => 0) h 2097124

theorem fullHeap_spec : ∃ h bs p, fullHeap = some (h, p) ∧ Tiled h bs ∧
    getUsed h.mem h.lastBlock = true ∧ h.heapEnd = heapBase + 0x200000 ∧
    searchAll h (roundRequest 10) = some (.exhausted h.lastBlock) := by
  have hrun : fullHeap.map (fun x => (getUsed x.1.mem x.1.lastBlock, x.1.heapEnd, x.1.lastBlock,
      searchAll x.1 (roundRequest 10))) = some (true, heapBase + 0x200000, heapBase + 20,
        some (.exhausted (heapBase + 20))) := by decide +kernel
  obtain ⟨⟨h, p⟩, hfull, hfacts⟩ := map_eq_some_iff.mp hrun
  simp only [Prod.mk.injEq] at hfacts
  obtain ⟨hu, hend, hlast, hs⟩ := hfacts
  obtain ⟨h0, bs0, hinit, ht0, -⟩ := init_spec (show BootFits bootImage by unfold BootFits; decide)
  have hfit : (init bootImage).map (fun h => searchAll h (roundRequest 2097124))
      = some (some (.take (heapBase + 20))) := by decide +kernel
  rw [hinit, map_some, Option.some.injEq] at hfit
  obtain ⟨h', bs', b, hk, ha⟩ := kmalloc_spec ht0 (show 2097124 ≠ 0 by decide)
    (by unfold RequestOk; decide) (fun block hb => by rw [hfit] at hb; cases hb)
    (show getUsed (fun _ => 0) h0.heapEnd = false from rfl)
  rw [fullHeap, hinit, bind_some, hk] at hfull
  cases hfull
  exact ⟨h, bs', getData b, by rw [fullHeap, hinit, bind_some, hk], ha.tiled, hu, hend,
    by rw [hs, hlast]⟩

/-- A page of zeros. -/
theorem enlarging_needs_clean_page_zero : ∃ h bs h', Tiled h bs ∧
    getUsed h.mem h.lastBlock = true ∧
    enlargeHeap (fun _ => 0) h (neededPages h.mem h.lastBlock (roundRequest 10)) = some h' ∧
    Enlarged 10 h' := by
  obtain ⟨h, bs, p, -, ht, hu, hend, hs⟩ := fullHeap_spec
  have hbase : heapBase + 0x200000 + 0x1000 < 2 ^ 64 := by decide
  have hspare : spare h = 0 := if_pos hu
  have hgrow : CanGrow h (exactRequest 10) := by
    have hone : missingPages h (exactRequest 10) = 1 := by
      rw [missingPages, hspare]
      rfl
    rw [CanGrow, hone, hspare, hend]
    exact ⟨by decide, hbase⟩
  have hclean : getUsed h.mem h.lastBlock = true → getUsed (fun _ => 0) h.heapEnd = false :=
    fun _ => rfl
  obtain ⟨h', he, hE⟩ :=
    (enlarging_needs_clean_page ht (by omega) (by decide) hs).mpr ⟨hclean, hgrow⟩
  exact ⟨h, bs, h', ht, hu, he, hE⟩

/-- **A page that is not clean**: it was used before, and a one is left where the new block has its
`used` bit. The block that is left is in use, and `splitBlock` refuses to split it. -/
theorem dirty_page_stops_kmalloc : ∃ h bs p, fullHeap = some (h, p) ∧ Tiled h bs ∧
    (∃ h', enlargeHeap (fun _ => 1) h (neededPages h.mem h.lastBlock (roundRequest 10)) = some h' ∧
      getUsed h'.mem h'.lastBlock = true ∧ ¬ Enlarged 10 h') ∧
    kmalloc (fun _ => 1) h 10 = none := by
  have hrun : fullHeap.map (fun x =>
      ((enlargeHeap (fun _ => 1) x.1 (neededPages x.1.mem x.1.lastBlock (roundRequest 10))).map
        fun h' => getUsed h'.mem h'.lastBlock, (kmalloc (fun _ => 1) x.1 10).isNone))
      = some (some true, true) := by decide +kernel
  obtain ⟨h, bs, p, hfull, ht, -⟩ := fullHeap_spec
  rw [hfull, map_some, Option.some.injEq] at hrun
  obtain ⟨hused, hnone⟩ := Prod.mk.inj hrun
  obtain ⟨h', he, hu⟩ := map_eq_some_iff.mp hused
  refine ⟨h, bs, p, hfull, ht, ⟨h', he, hu, fun hE => ?_⟩, Option.isNone_iff_eq_none.mp hnone⟩
  rw [hE.free] at hu
  cases hu

/-! ## Where the request is served from -/

theorem splitBlock_cases {m' : Mem} {first second : Nat}
    (he : splitBlock m b size = some (m', first, second)) :
    getUsed m b = false ∧ first = b ∧ second = b + size ∧ ∀ x < b, m' x = m x := by
  obtain ⟨hfree, he⟩ := of_assert he
  obtain ⟨-, he⟩ := of_assert he
  obtain ⟨m1, hm1, he⟩ := of_bind he
  obtain ⟨m2, hm2, he⟩ := of_bind he
  cases he
  refine ⟨hfree, rfl, rfl, fun x hx => ?_⟩
  have hx' : x < b + size := by omega
  rw [setUsed_outside (.inl hx'), (setSize_keeps hm2).2 x hx', (setSize_keeps hm1).2 x hx]

/-- The end of `kmalloc` takes the last block and moves nothing else, and writes nothing before
it. -/
theorem takeLast_cases (he : takeLast h size = some (h', p)) :
    p = getData h.lastBlock ∧ size ≤ getSize h.mem h.lastBlock ∧ h'.heapEnd = h.heapEnd ∧
      h'.heapStart = h.heapStart ∧ (size ≤ sub32 (getSize h.mem h.lastBlock) BLOCK_MIN_SIZE →
        getUsed h.mem h.lastBlock = false) ∧
      h.lastBlock ≤ h'.lastBlock ∧ ∀ x < h.lastBlock, h'.mem x = h.mem x := by
  obtain ⟨hroom, he⟩ := of_assert he
  split at he
  · obtain ⟨⟨m, block, last⟩, hcut, he⟩ := of_bind he
    obtain ⟨-, he⟩ := of_assert he
    obtain ⟨-, he⟩ := of_assert he
    cases he
    obtain ⟨hfree, rfl, rfl, hsame⟩ := splitBlock_cases hcut
    exact ⟨rfl, hroom, rfl, rfl, fun _ => hfree, Nat.le_add_right _ _,
      fun x hx => (setUsed_outside (.inl hx)).trans (hsame x hx)⟩
  · rename_i hno
    obtain ⟨⟨m, block, last⟩, hcut, he⟩ := of_bind he
    cases hcut
    obtain ⟨-, he⟩ := of_assert he
    obtain ⟨-, he⟩ := of_assert he
    cases he
    exact ⟨rfl, hroom, rfl, rfl, fun hc => absurd hc hno, le_rfl,
      fun x hx => setUsed_outside (.inl hx)⟩

/-- A block that fits is taken where it is, and the heap does not grow. -/
theorem allocFrom_at_cases (he : allocFrom pages h size (Search.at h.mem size b) = some (h', p)) :
    p = getData b ∧ h'.heapEnd = h.heapEnd ∧ h'.heapStart = h.heapStart := by
  unfold Search.at at he
  split at he
  · obtain ⟨-, he⟩ := of_assert he
    cases he
    exact ⟨rfl, rfl, rfl⟩
  · obtain ⟨⟨m, first, second⟩, hcut, he⟩ := of_bind he
    obtain ⟨-, he⟩ := of_assert he
    obtain ⟨-, he⟩ := of_assert he
    obtain ⟨-, he⟩ := of_assert he
    cases he
    obtain ⟨-, rfl, -⟩ := splitBlock_cases hcut
    exact ⟨rfl, rfl, rfl⟩

/-- The two ways of `kmalloc`: the first block that fits, or the last one after the heap has
grown. -/
theorem kmalloc_cases (ht : Tiled h bs) (h0 : size ≠ 0) (hk : kmalloc pages h size = some (h', p)) :
    (∃ front b back, bs = front ++ b :: back ∧
      (∀ c ∈ front, ¬ Fits h.mem (roundRequest size) c) ∧ Fits h.mem (roundRequest size) b ∧
      p = getData b ∧ h'.heapEnd = h.heapEnd ∧ h'.heapStart = h.heapStart) ∨
    ((∀ c ∈ bs, ¬ Fits h.mem (roundRequest size) c) ∧
      ∃ h1, enlargeHeap pages h (neededPages h.mem h.lastBlock (roundRequest size)) = some h1 ∧
        takeLast h1 (roundRequest size) = some (h', p)) := by
  unfold kmalloc at hk
  rw [if_neg h0] at hk
  rcases searchAll_spec (roundRequest size) ht with
    ⟨front, b, back, hbs, hfront, hfit, hs⟩ | ⟨hno, hs⟩
  · rw [hs, bind_some] at hk
    exact .inl ⟨front, b, back, hbs, hfront, hfit, allocFrom_at_cases hk⟩
  · rw [hs] at hk
    obtain ⟨-, hk⟩ := of_assert hk
    obtain ⟨h1, he, hk⟩ := of_bind hk
    exact .inr ⟨hno, h1, he, hk⟩

/-! ## Where the heap is -/

/-- The heap begins where the linker script puts it, and its end is an address. -/
structure Placed (h : Heap) : Prop where
  start : h.heapStart = heapBase
  stop : h.heapEnd < 2 ^ 64

theorem Placed.kmalloc (hp : Placed h) (ht : Tiled h bs)
    (hk : kmalloc pages h size = some (h', p)) : Placed h' := by
  by_cases h0 : size = 0
  · rw [KHeap.kmalloc, if_pos h0] at hk
    cases hk
    exact hp
  rcases kmalloc_cases ht h0 hk with ⟨-, -, -, -, -, -, -, hend, hstart⟩ | ⟨-, h1, he, htake⟩
  · exact ⟨hstart.trans hp.start, by rw [hend]; exact hp.stop⟩
  · obtain ⟨-, -, hend, hstart, -⟩ := takeLast_cases htake
    obtain ⟨hloop, -⟩ := enlargeHeap_loop he
    obtain ⟨hend1, -, hstart1⟩ := enlargeLoop_bounds hloop hp.stop
    refine ⟨(hstart.trans hstart1).trans hp.start, ?_⟩
    omega

/-- A block is no longer than what is above the start of the heap. -/
theorem Placed.getSize_le (hp : Placed h) (ht : Tiled h bs) (hb : b ∈ bs) :
    getSize h.mem b < 2 ^ 28 := by
  have hbounds := ht.tiles.mem_bounds hb
  have hstart : h.heapStart = 0xfffffffff0000000 := hp.start
  have hstop := hp.stop
  omega

theorem reach_placed {mem : Mem} {h0 : Heap} {s : State} (hboot : BootFits mem)
    (hinit : init mem = some h0)
    (hr : Reach step Admissible { heap := h0, live := [] } s) :
    (∃ bs, HeapInv s bs) ∧ Placed s.heap := by
  obtain ⟨h1, bs1, e1, ht1, hstart, hstop⟩ := init_spec hboot
  rw [hinit] at e1
  cases e1
  refine hr.invariant (I := fun s => (∃ bs, HeapInv s bs) ∧ Placed s.heap)
    ⟨⟨bs1, HeapInv.mk' ht1 (by simp) (by simp)⟩, hstart, ?_⟩ ?_
  · rw [hstop]
    decide
  · rintro s op s' ⟨⟨bs, hi⟩, hp⟩ hok hs
    obtain ⟨s1, bs1, e1, hi1, -⟩ := heapInv_step hi hok
    rw [hs] at e1
    cases e1
    refine ⟨⟨bs1, hi1⟩, ?_⟩
    cases op with
    | kmalloc size pages =>
      obtain ⟨⟨h', p⟩, hk, hs⟩ := of_bind hs
      cases hs
      exact hp.kmalloc hi.tiled hk
    | kfree p =>
      cases hs
      unfold KHeap.kfree
      split
      · exact hp
      · exact ⟨hp.start, hp.stop⟩
    | write p offset v =>
      cases hs
      exact ⟨hp.start, hp.stop⟩

end Flix.KHeap

import Flix.Boot.KernelDirectory

/-!
# A small kernel gets its directory

Sixteen tables are enough for a kernel of up to 2 MB: three to get to the last level, and
there one for the kernel, one for the screen, one for the stack and one for each heap. The
ranges have different pages and different frames, so that nothing is mapped or marked twice.

What has been mapped so far is kept as sets of page numbers and of frames (`Filled`), and a
range goes through if it meets neither.
-/

namespace Flix.Boot

open Function Radix Paging

variable {w w' : World} {v : VAddr} {k paddr attr : Nat}

variable {t n size : Nat}

/-- What `_mapPageTo` asks of an address of the kernel. -/
structure Private (v : VAddr) (attr : Nat) : Prop where
  high : 0xffffffffc0000000 ≤ v.toNat
  bits : attr < 16
  user : attr.testBit 1 = false

/-- A page can be mapped if the walk to it ends, at an entry that is not in use. -/
theorem mapPageToRaw_of_walk (paddr : Nat) {r : Nat} {e : Entry} (hv : Private v attr)
    (hwalk : getEntryCreate bootBlock (setAttributes 0x3) 0 3 w r v = some (w', t, index 0 v))
    (he : w'.entry t (index 0 v) = some e) (hp : e.p = false) :
    mapPageToRaw bootBlock w r v paddr attr
      = some (w'.setEntry t (index 0 v) (setAttributes attr (e.present paddr))) := by
  have hlow : ¬ (v.toNat < 0xffffffff00000000 ∧ attr.testBit 1 = false) := by
    have hhigh := hv.high
    omega
  have hpublic : ¬ (v.toNat > 0xffffffffc0000000 ∧ attr.testBit 1 = true) := by
    intro hc
    rw [hv.user] at hc
    exact Bool.false_ne_true hc.2
  unfold mapPageToRaw mapPageToF
  rw [assert_pos hlow, assert_pos hpublic, assert_pos hv.bits]
  simp only [bind_eq_bind, bind_some, hwalk, he, assert_pos hp]

/-! ## Pages -/

/-- A page of the kernel can be mapped, with one block at most. -/
theorem Booting.mapPage_total (paddr : Nat) (h : Booting 2 w) (hplain : Plain k w)
    (hroom : k < 16 ∨ Covered w 0 v) (hv : Private v attr) (hp : (pte w 0 v).p = false) :
    ∃ w' k', Paging.mapPageToRaw bootBlock w w.kernel.root v paddr attr = some w' ∧ Plain k' w' ∧
      k' ≤ k + 1 ∧ (Covered w 0 v → k' = k) := by
  have hroot : w.kernel.root = 0 := h.sound.kernel
  rw [hroot]
  by_cases hcov : Covered w 0 v
  · obtain ⟨t, ht⟩ := isSome_iff_exists.mp hcov
    have hwalk : getEntryCreate bootBlock (setAttributes 0x3) 0 3 w 0 v = some (w, t, index 0 v) :=
      getEntryCreate_follow (j := 3) ht
    exact ⟨_, k, mapPageToRaw_of_walk paddr hv hwalk (h.sound.entry_eq rfl ht) hp,
      { hplain with }, by omega, fun _ => rfl⟩
  · have hshared : pathTo (0 + 1) 2 v = [511, 511] := by
      obtain ⟨h3, h2⟩ := Sharing.shared_of_le hv.high
      show [index 3 v, index 2 v] = _
      rw [h3, h2]
    have hS : follow w.tables 0 (pathTo (0 + 1) 2 v) = some 2 := by
      rw [hshared]
      exact h.sound.rootShares rfl
    obtain ⟨n, hn⟩ := isSome_iff_exists.mp (h.sound.live rfl hS)
    have hnone : n.next (index 1 v) = none := by
      cases hnext : n.next (index 1 v) with
      | none => rfl
      | some u =>
        refine absurd ?_ hcov
        have hpath : follow w.tables 0 (path v) = some u :=
          (follow_snoc hS hn).trans hnext
        rw [Covered, hpath]
        rfl
    have habsent := h.sound.absent rfl hS hn (by rw [hshared]; exact Nat.lt_succ_self 2) hnone
    have hk : k < 16 := hroom.resolve_right hcov
    -- the table that is shared has been taken before
    have hk2 : k ≠ 2 := by
      rintro rfl
      have hused := h.sound.block (h.sound.live rfl hS)
      rw [hplain.map] at hused
      cases hused
    obtain ⟨heap, hcreate, hplain1⟩ := getEntryCreate_create (setAttributes 0x3) 0 0 v
      hplain hk hk2 hn hnone habsent
    have hwalk := (getEntryCreate_follow hS).trans hcreate
    have hentry : (World.link { w with heap := heap } 2 (index 1 v) k (setAttributes 0x3
        ((n.entries (index 1 v)).present (w.pageHeapStart + k * PAGE_SIZE * 2)))).entry k
          (index 0 v) = some .zero := by
      rw [World.entry, link_new hk2]
      rfl
    exact ⟨_, k + 1, mapPageToRaw_of_walk paddr hv hwalk hentry rfl,
      { hplain1 with }, le_rfl, fun hc => absurd hc hcov⟩

/-- The page of the screen, with all tables to it. -/
theorem boot_first_total (l : Layout) (paddr : Nat) (hv : Private Symbols.kernelVVga attr) :
    ∃ w pd w' k, createPm l.world = some (w, pd) ∧
      mapPageToRaw bootBlock { w with kernel := pd } pd.root Symbols.kernelVVga paddr attr = some w' ∧
      Plain k w' ∧ k ≤ 4 := by
  obtain ⟨w, pd, w3, hpd, h3, hplain, hzero, -, -, -, hsame⟩ := boot_chain l
  obtain ⟨w', k, hpage, hplain', hle, -⟩ := h3.mapPage_total paddr hplain (.inl (by omega)) hv
    (by rw [hzero]; rfl)
  exact ⟨w, pd, w', k, hpd, (hsame paddr attr).trans hpage, hplain', hle⟩

/-- Whether there is a table depends on the path alone. -/
theorem covered_of_path {v' : VAddr} (hc : Covered w 0 v) (h : path v' = path v) :
    Covered w 0 v' := by
  rw [Covered, h]
  exact hc

theorem covered_of_present (hp : (pte w 0 v).p = true) : Covered w 0 v := by
  cases hf : follow w.tables 0 (path v) with
  | none =>
    rw [pte_of_none hf] at hp
    cases hp
  | some t =>
    rw [Covered, hf]
    rfl

/-- The pages of a range that is below one table. -/
structure InArea (v : VAddr) (q : List Nat) (attr n : Nat) : Prop where
  path : ∀ i < n, path (v + BitVec.ofNat 64 (i * 0x1000)) = q
  own : ∀ i < n, Private (v + BitVec.ofNat 64 (i * 0x1000)) attr
  inj : ∀ i < n, ∀ j < n, slotOf 0 (v + BitVec.ofNat 64 (i * 0x1000))
    = slotOf 0 (v + BitVec.ofNat 64 (j * 0x1000)) → i = j

theorem InArea.tail {q : List Nat} (h : InArea v q attr (n + 1)) :
    InArea (v + 0x1000) q attr n := by
  refine ⟨fun i hi => ?_, fun i hi => ?_, fun i hi j hj hs => ?_⟩
  · rw [add_page]
    exact h.path (i + 1) (by omega)
  · rw [add_page]
    exact h.own (i + 1) (by omega)
  · rw [add_page, add_page] at hs
    have heq := h.inj (i + 1) (by omega) (j + 1) (by omega) hs
    omega

/-- A range below one table can be mapped, with one block at most. -/
theorem Booting.mapRangeTo_total (paddr : Nat) {q : List Nat} (h : Booting 2 w)
    (hplain : Plain k w) (hattr : attr.testBit 3 = false) (hroom : k < 16 ∨ Covered w 0 v)
    (harea : InArea v q attr n)
    (hfree : ∀ i < n, (pte w 0 (v + BitVec.ofNat 64 (i * 0x1000))).p = false) :
    ∃ w' k', Boot.mapRangeTo w v paddr attr n = some w' ∧ Plain k' w' ∧ k' ≤ k + 1 ∧
      (Covered w 0 v → k' = k) := by
  induction n generalizing w v paddr k with
  | zero => exact ⟨w, k, rfl, hplain, by omega, fun _ => rfl⟩
  | succ n ih =>
    have hzero : v + BitVec.ofNat 64 (0 * 0x1000) = v := by simp
    have hv : Private v attr := hzero ▸ harea.own 0 (by omega)
    obtain ⟨w1, k1, hpage, hplain1, hle1, hsame1⟩ := h.mapPage_total paddr hplain hroom
      hv (hzero ▸ hfree 0 (by omega))
    obtain ⟨h1, -, -, -, hview⟩ := h.mapPageToRaw hpage
    have hfree1 : ∀ i < n, (pte w1 0 (v + 0x1000 + BitVec.ofNat 64 (i * 0x1000))).p = false := by
      intro i hi
      rw [add_page, hview, if_neg]
      · exact hfree (i + 1) (by omega)
      · intro hs
        have heq := harea.inj (i + 1) (by omega) 0 (by omega) (by rw [hzero]; exact hs)
        omega
    -- from here on there is a table
    have hp1 : (pte w1 0 v).p = true := by
      rw [hview, if_pos rfl]
      exact (present_base attr paddr _ hattr).1
    have hcov1 : n = 0 ∨ Covered w1 0 (v + 0x1000) := by
      rcases Nat.eq_zero_or_pos n with hn | hn
      · exact .inl hn
      · refine .inr (covered_of_path (covered_of_present hp1) ?_)
        have hnext := harea.path 1 (by omega)
        have hfirst := harea.path 0 (by omega)
        rw [hzero] at hfirst
        rw [hfirst]
        exact hnext
    rcases hcov1 with rfl | hcov1
    · exact ⟨w1, k1, by rw [Boot.mapRangeTo, hpage]; rfl, hplain1, hle1, hsame1⟩
    · obtain ⟨w', k', hrest, hplain', -, hsame'⟩ :=
        ih (paddr + 0x1000) h1 hplain1 (.inr hcov1) harea.tail hfree1
      have hk' := hsame' hcov1
      refine ⟨w', k', ?_, hplain', by omega, fun hc => hk'.trans (hsame1 hc)⟩
      rw [Boot.mapRangeTo, hpage]
      exact hrest

/-! ## Ranges -/

/-- What there is while the directory is built: `k` blocks are taken at most, no other pages are
mapped, and no other frames are marked, all of them below 4096. -/
structure Filled (k : Nat) (pages frames : Nat → Prop) (w : World) : Prop where
  booting : Booting 2 w
  blocks : ∃ k' ≤ k, Plain k' w
  mapped : ∀ {v}, (pte w 0 v).p = true → pages (v.toNat / 0x1000 % 2 ^ 36)
  used : ∀ {f}, Used w.frames f → frames f
  short : w.frames.length ≤ 4096

/-- A range of pages that does not cross a multiple of 2 MB. -/
structure Fits (v : VAddr) (size attr : Nat) : Prop where
  high : 0xffffffffc0000000 ≤ v.toNat
  aligned : v.toNat % 0x1000 = 0
  pages : size % 0x1000 = 0
  fits : v.toNat % 0x200000 + size ≤ 0x200000
  bits : attr < 16
  user : attr.testBit 1 = false
  defer : attr.testBit 3 = false

theorem Fits.toNat {i : Nat} (h : Fits v size attr) (hi : i < size / 0x1000) :
    (v + BitVec.ofNat 64 (i * 0x1000)).toNat = v.toNat + i * 0x1000 := by
  have hfits := h.fits
  simp only [BitVec.toNat_add, BitVec.toNat_ofNat]
  omega

theorem Fits.inArea (h : Fits v size attr) : InArea v (path v) attr (size / 0x1000) := by
  have hfits := h.fits
  refine ⟨fun i hi => ?_, fun i hi => ⟨?_, h.bits, h.user⟩, fun i hi j hj hs => ?_⟩
  · simp only [path, index, h.toNat hi, List.cons.injEq, and_true]
    omega
  · rw [h.toNat hi]
    exact h.high.trans (Nat.le_add_right _ _)
  · have hpage := slotOf_page hs
    rw [h.toNat hi, h.toNat hj] at hpage
    omega

/-- The numbers from `a` on. -/
@[reducible] def Among (a n x : Nat) : Prop := a ≤ x ∧ x < a + n

/-- `MAP_RANGE` goes through where neither pages nor frames are met again. The numbers of the pages
start at `p`, those of the frames at `f`. -/
theorem Filled.mapRange {pages frames : Nat → Prop} {p f : Nat} (h : Filled k pages frames w)
    (v : VAddr) (paddr n attr : Nat)
    (hattr : attr < 16 ∧ attr.testBit 1 = false ∧ attr.testBit 3 = false)
    (hat : v.toNat = 0xffff000000000000 + p * 0x1000 ∧ paddr = f * 0x1000 ∧ 0xffffc0000 ≤ p ∧
      p % 512 + n ≤ 512 ∧ f + n ≤ 4096 ∧ k < 16)
    (hnew : ∀ x, (Among p n x → ¬ pages x) ∧ (Among f n x → ¬ frames x)) :
    ∃ w', MAP_RANGE w v paddr (n * 0x1000) attr = some w' ∧
      Filled (k + 1) (fun x => pages x ∨ Among p n x) (fun x => frames x ∨ Among f n x) w' := by
  have hfits : Fits v (n * 0x1000) attr :=
    ⟨by omega, by omega, by omega, by omega, hattr.1, hattr.2.1, hattr.2.2⟩
  obtain ⟨k0, hle0, hplain⟩ := h.blocks
  have harea := hfits.inArea
  rw [show n * 0x1000 / 0x1000 = n by omega] at harea
  -- where the pages are
  have hnumber : ∀ i < n, (v + BitVec.ofNat 64 (i * 0x1000)).toNat / 0x1000 % 2 ^ 36 = p + i := by
    intro i hi
    rw [hfits.toNat (by omega)]
    omega
  have hfree : ∀ i < n, (pte w 0 (v + BitVec.ofNat 64 (i * 0x1000))).p = false := by
    intro i hi
    by_contra hc
    have hmapped := h.mapped ((Bool.not_eq_false _).mp hc)
    rw [hnumber i hi] at hmapped
    exact (hnew _).1 ⟨by omega, by omega⟩ hmapped
  obtain ⟨w1, k1, hto, hplain1, hle1, -⟩ := h.booting.mapRangeTo_total paddr hplain hfits.defer
    (.inl (by omega)) harea hfree
  obtain ⟨h1, hrange⟩ := h.booting.mapRangeTo hfits.defer hto
  have hmem : ∀ x, x ∈ kernelPages paddr (n * 0x1000) ↔ Among f n x := by
    intro x
    rw [kernelPages, List.mem_range'_1]
    omega
  obtain ⟨mem, hmark⟩ : ∃ mem, markAll ⟨w1.frames, 0⟩ (kernelPages paddr (n * 0x1000)) = some mem := by
    refine markAll_total List.nodup_range' fun x hx hu => ?_
    rw [hrange.frames] at hu
    exact (hnew x).2 ((hmem x).mp hx) (h.used hu)
  refine ⟨{ w1 with frames := mem.frames }, ?_, ?_⟩
  · rw [MAP_RANGE, show (n * 0x1000 + 0xfff) / 0x1000 = n by omega, hto]
    simp only [bind_eq_bind, bind_some, mapRange_eq, hmark]
  · obtain ⟨-, -, hused, -⟩ := markAll_spec hmark
    refine ⟨h1.withFrames _, ⟨k1, by omega, { hplain1 with }⟩,
      fun {v'} hp' => ?_, fun {x} hu => ?_, markAll_length_le (by decide) (fun x hx => ?_)
        (hrange.frames ▸ h.short) hmark⟩
    · have hp' : (pte w1 0 v').p = true := hp'
      rcases hrange.view v' with ⟨i, hi, hs, -⟩ | ⟨-, hold⟩
      · refine .inr ?_
        have hpage := slotOf_page hs
        rw [hnumber i hi] at hpage
        exact ⟨by omega, by omega⟩
      · rw [hold] at hp'
        exact .inl (h.mapped hp')
    · rcases (hused x).mp hu with hu | hx
      · rw [hrange.frames] at hu
        exact .inl (h.used hu)
      · exact .inr ((hmem x).mp hx)
    · have hlt := ((hmem x).mp hx).2
      omega

/-! ## The whole -/

theorem filled_first (pages : Nat → Prop) {frames : List Bool} (hb : Booting 2 w)
    (hplain : ∃ k' ≤ k, Plain k' w)
    (hmapped : ∀ {v}, (pte w 0 v).p = true → pages (v.toNat / 0x1000 % 2 ^ 36))
    (hmark : Paging.setPageUsed [] 0xB8 = some frames) :
    Filled k pages (· = 0xB8) { w with frames := frames } := by
  obtain ⟨k', hle, hplain⟩ := hplain
  refine ⟨hb.withFrames frames, ⟨k', hle, { hplain with }⟩, hmapped,
    fun {f} hu => ?_, setPageUsed_length_le (by decide) (by decide) (Nat.zero_le _) hmark⟩
  rcases ((setPageUsed_spec hmark).2 f).mp hu with hu | hf
  · cases hu
  · exact hf

theorem virtualOf_toNat (hn : n < 0x40000000) :
    (Symbols.virtualOf (0x200000 + n)).toNat = 0xffffffffc0000000 + n := by
  have hbase : (0xffffffffc0000000 : VAddr).toNat = 0xffffffffc0000000 := rfl
  rw [Symbols.virtualOf, BitVec.toNat_add, BitVec.toNat_ofNat]
  omega

theorem Layout.align_bounds {l : Layout} (hl : l.text + l.rodata + l.data ≤ 512) :
    ∃ a, KHeap.ptrAlignSup l.image.bssEnd 0x200000 = a * 0x200000 ∧ (a = 1 ∨ a = 2) ∧
      512 + l.text + l.rodata + l.data ≤ a * 512 := by
  refine ⟨(l.image.bssEnd + 0x200000 - 1) % 2 ^ 64 / 0x200000, rfl, ?_⟩
  simp only [Layout.image]
  omega

/-- What is mapped in the directory of a small kernel, and how far its bitmap goes. -/
structure Small (w : World) : Prop where
  mapped : ∀ {v}, (pte w 0 v).p = true → v.toNat / 0x1000 % 2 ^ 36 < 0xffffd0000 ∨
    Among 0xffffe0000 32 (v.toNat / 0x1000 % 2 ^ 36) ∨ 0xfffff0000 ≤ v.toNat / 0x1000 % 2 ^ 36
  short : w.frames.length ≤ 4096

/-- A kernel of up to 512 pages gets its directory. -/
theorem initKernelDirectory_total {l : Layout} (hl : l.text + l.rodata + l.data ≤ 512) :
    ∃ w, initKernelDirectory l = some w ∧ Small w := by
  obtain ⟨a, ha, ha', hbeyond⟩ := Layout.align_bounds hl
  have hvga : Symbols.kernelVVga.toNat = 0xffffffffcf000000 := rfl
  have hstack : (Symbols.stackBase - 0x4000).toNat = 0xffffffffcfffc000 := rfl
  have hpageHeap : pageHeapBase.toNat = 0xffffffffe0000000 := rfl
  have hheap : Symbols.heapBase.toNat = 0xfffffffff0000000 := rfl
  have htext : (Symbols.virtualOf 0x200000).toNat = 0xffffffffc0000000 := rfl
  have hrodata := virtualOf_toNat (n := l.text * 0x1000) (by omega)
  have hdata := virtualOf_toNat (n := l.text * 0x1000 + l.rodata * 0x1000) (by omega)
  rw [← Nat.add_assoc] at hdata
  -- the screen
  have hscreen : Private Symbols.kernelVVga ATTR_RW := ⟨by omega, by decide, by decide⟩
  obtain ⟨w0, pd, w1, k1, hpd, h1, hplain1, hle1⟩ := boot_first_total l 0xB8000 hscreen
  obtain ⟨hb1, hframes1, -, -, hview1⟩ := boot_first hpd h1
  obtain ⟨frames, hmark⟩ : ∃ frames, Paging.setPageUsed [] 0xB8 = some frames :=
    ⟨_, setPageUsed_free (by simp [Used])⟩
  have hmapped1 : ∀ {v}, (pte w1 0 v).p = true → v.toNat / 0x1000 % 2 ^ 36 = 0xffffcf000 := by
    intro v hp
    rw [hview1] at hp
    split at hp
    · rename_i hs
      rw [slotOf_page hs]
      rfl
    · cases hp
  have f1 := filled_first (· = 0xffffcf000) hb1 ⟨k1, hle1, hplain1⟩ hmapped1 hmark
  -- the parts of the kernel, one after the other
  obtain ⟨w2, h2, f2⟩ := f1.mapRange (p := 0xffffc0000) (f := 0x200) (Symbols.virtualOf 0x200000)
    0x200000 l.text 0 (by decide) (by omega) (fun _ => by omega)
  obtain ⟨w3, h3, f3⟩ := f2.mapRange (p := 0xffffc0000 + l.text) (f := 0x200 + l.text)
    (Symbols.virtualOf (0x200000 + l.text * 0x1000)) (0x200000 + l.text * 0x1000) l.rodata
    ATTR_NOEXEC (by decide) (by omega) (fun _ => by omega)
  obtain ⟨w4, h4, f4⟩ := f3.mapRange (p := 0xffffc0000 + l.text + l.rodata)
    (f := 0x200 + l.text + l.rodata)
    (Symbols.virtualOf (0x200000 + l.text * 0x1000 + l.rodata * 0x1000))
    (0x200000 + l.text * 0x1000 + l.rodata * 0x1000) l.data (ATTR_NOEXEC + ATTR_RW) (by decide)
    (by omega) (fun _ => by omega)
  -- the stack and the heaps
  obtain ⟨w5, h5, f5⟩ := f4.mapRange (p := 0xffffcfffc) (f := a * 512 + 508)
    (Symbols.stackBase - 0x4000) (a * 0x200000 + 0x200000 - 0x4000) 4 (ATTR_NOEXEC + ATTR_RW)
    (by decide) (by omega) (fun _ => by omega)
  obtain ⟨w6, h6, f6⟩ := f5.mapRange (p := 0xffffe0000) (f := a * 512 + 512) pageHeapBase
    (a * 0x200000 + 0x200000) 32 (ATTR_NOEXEC + ATTR_RW) (by decide) (by omega) (fun _ => by omega)
  obtain ⟨w7, h7, f7⟩ := f6.mapRange (p := 0xfffff0000) (f := a * 512 + 1024) Symbols.heapBase
    (a * 0x200000 + 0x200000 + 0x200000) 512 (ATTR_NOEXEC + ATTR_RW) (by decide) (by omega)
    (fun _ => by omega)
  rw [← ha] at h5 h6 h7
  refine ⟨w7, ?_, fun hp => by have := f7.mapped hp; omega, f7.short⟩
  unfold initKernelDirectory
  refine bind_eq_some_iff.mpr ⟨(w0, pd), hpd, bind_eq_some_iff.mpr ⟨w1, h1, ?_⟩⟩
  refine bind_eq_some_iff.mpr ⟨frames, by rw [hframes1]; exact hmark, ?_⟩
  refine bind_eq_some_iff.mpr ⟨w2, h2, bind_eq_some_iff.mpr ⟨w3, h3, ?_⟩⟩
  refine bind_eq_some_iff.mpr ⟨w4, h4, bind_eq_some_iff.mpr ⟨w5, h5, ?_⟩⟩
  exact bind_eq_some_iff.mpr ⟨w6, h6, h7⟩

end Flix.Boot

import Flix.Memory.KHeapBlocks

/-!
# The three ways to allocate

`kmalloc` ends in one of three ways: it takes a free block whole, cuts one in
two, or enlarges the heap and takes the last block. All three are proved to give
the same thing, `Allocates`: a new tiling in which one block, not in use before,
is now in use and large enough, while every block in use before keeps its place
and every one of its bytes.
-/

namespace Flix.KHeap

open Bytes Tiling

/-! ## Cutting a block in two -/

variable {m pages : Mem} {b size x : Nat} {h : Heap} {bs : List Nat}

theorem splitBlock_spec (hfree : getUsed m b = false)
    (halign : size % BLOCK_ALIGN = 0) (hmin : BLOCK_MIN_SIZE ≤ size)
    (hroom : size + BLOCK_MIN_SIZE ≤ getSize m b) :
    ∃ m', splitBlock m b size = some (m', b, b + size)
      ∧ getSize m' b = size ∧ getSize m' (b + size) = getSize m b - size
      ∧ getUsed m' b = false ∧ getUsed m' (b + size) = false
      ∧ ∀ x, (x < b ∨ b + 4 ≤ x) → (x < b + size ∨ b + size + 4 ≤ x) → m' x = m x := by
  have hlt := getSize_lt m b
  have hmod := getSize_mod m b
  unfold BLOCK_MIN_SIZE HEADER_SIZE at hmin hroom
  unfold BLOCK_ALIGN at halign hmod
  obtain ⟨m1, e1, s1, u1, f1⟩ := setSize_spec (m := m) (b := b) halign (by omega)
  obtain ⟨m2, e2, s2, u2, f2⟩ := setSize_spec (m := m1) (b := b + size) (n := getSize m b - size)
    (by unfold BLOCK_ALIGN; omega) (by omega)
  have hb : ∀ x, b ≤ x → x < b + 4 → setUsed m2 (b + size) false x = m1 x := by
    intro x h1 h2
    rw [setUsed_outside (by omega), f2 x (by omega)]
  refine ⟨setUsed m2 (b + size) false, ?_, ?_, ?_, ?_, ?_, ?_⟩
  · unfold splitBlock
    have hsub : size ≤ sub32 (getSize m b) BLOCK_MIN_SIZE := by
      rw [sub32_of_le hlt (by unfold BLOCK_MIN_SIZE HEADER_SIZE; omega)]
      unfold BLOCK_MIN_SIZE HEADER_SIZE
      omega
    simp only [assert_pos hfree, assert_pos hsub, sub32_of_le hlt (show size ≤ getSize m b by omega),
      e1, e2, bind_eq_bind, bind_some]
  · rw [getSize_congr hb, s1]
  · rw [getSize_setUsed, s2]
  · rw [getUsed_congr hb, u1, hfree]
  · rw [getUsed_setUsed]
  · intro x h1 h2
    rw [setUsed_outside h2, f2 x h2, f1 x h1]

/-- The tiling after a cut; the second part becomes the last block if the whole was. -/
theorem Tiled.split {front back : List Nat} {m' : Mem} (ht : Tiled h (front ++ b :: back))
    (hmin : BLOCK_MIN_SIZE ≤ size) (hroom : size + BLOCK_MIN_SIZE ≤ getSize h.mem b)
    (hs1 : getSize m' b = size) (hs2 : getSize m' (b + size) = getSize h.mem b - size)
    (hf : ∀ x, (x < b ∨ b + getSize h.mem b ≤ x) → x < h.heapEnd → m' x = h.mem x) :
    Tiled { h with mem := m', lastBlock := if b = h.lastBlock then b + size else h.lastBlock }
      (front ++ b :: (b + size) :: back) := by
  have hother : ∀ c ∈ front ++ b :: back, c ≠ b → getSize m' c = getSize h.mem c := by
    intro c hc hne
    refine getSize_congr (fun x h1 h2 => hf x ?_ (ht.header_below hc h2))
    have hm := ht.min c hc
    unfold BLOCK_MIN_SIZE HEADER_SIZE at hm
    rcases ht.tiles.disjoint (by simp) hc (Ne.symm hne) with hd | hd <;> omega
  have hl : ∀ c ∈ front, getSize m' c = getSize h.mem c :=
    fun c hc => hother c (by simp [hc]) (ht.ne_of_split (Or.inl hc))
  have hr : ∀ c ∈ back, getSize m' c = getSize h.mem c :=
    fun c hc => hother c (by simp [hc]) (ht.ne_of_split (Or.inr hc))
  refine ⟨ht.tiles.split (by omega) hs1 hs2 hl hr, ?_, ?_, ht.page⟩
  · intro c hc
    simp only [mem_append, mem_cons] at hc
    rcases hc with hc | rfl | rfl | hc
    · rw [hl c hc]; exact ht.min c (by simp [hc])
    · rw [hs1]; exact hmin
    · rw [hs2]; omega
    · rw [hr c hc]; exact ht.min c (by simp [hc])
  · obtain ⟨fr, hbs⟩ := ht.last
    -- `b` is the last block exactly when nothing follows it
    rcases List.eq_nil_or_concat back with rfl | ⟨back', z, rfl⟩
    · have hz : b = h.lastBlock := by simpa using (List.append_inj' hbs rfl).2
      refine ⟨front ++ [b], ?_⟩
      simp [hz]
    · have hz : z = h.lastBlock := by
        have hcat : (front ++ b :: back') ++ [z] = fr ++ [h.lastBlock] := by simpa using hbs
        simpa using (List.append_inj' hcat rfl).2
      have hzb : b ≠ h.lastBlock := by
        rw [← hz]
        exact Ne.symm (ht.ne_of_split (Or.inr (by simp)))
      refine ⟨front ++ b :: (b + size) :: back', ?_⟩
      simp [hzb, hz]

/-! ## Enlarging the heap -/

theorem mapPage_below {a : Nat} (h : x < a) : mapPage pages m a x = m x := by
  unfold mapPage; rw [if_neg (by omega)]

theorem mapPage_inside {a : Nat} (h1 : a ≤ x) (h2 : x < a + PAGE_SIZE) :
    mapPage pages m a x = pages x := by
  unfold mapPage; rw [if_pos ⟨h1, h2⟩]

/-- The heap `h'` is `h` with `n` more bytes at its end, in a free last block. -/
structure Grown (h h' : Heap) (bs bs' : List Nat) (n : Nat) : Prop where
  /-- The blocks still tile the heap. -/
  tiled : Tiled h' bs'
  /-- The last block is free. -/
  free : getUsed h'.mem h'.lastBlock = false
  start : h'.heapStart = h.heapStart
  stop : h'.heapEnd = h.heapEnd + n
  /-- Below the old end nothing changed but the header of the last block. -/
  same : ∀ x, x < h.heapEnd → (x < h'.lastBlock ∨ h'.lastBlock + 4 ≤ x) → h'.mem x = h.mem x
  /-- The last block is the old one, which was free, or a new one at the old end. -/
  blocks : (bs' = bs ∧ h'.lastBlock = h.lastBlock ∧ getUsed h.mem h.lastBlock = false)
    ∨ (bs' = bs ++ [h.heapEnd] ∧ h'.lastBlock = h.heapEnd ∧ getUsed h.mem h.lastBlock = true)

section Grown

variable {h' : Heap} {bs' : List Nat} {n : Nat} (g : Grown h h' bs bs' n)
include g

/-- A last block that was free is the last block still, and has all there is more. -/
theorem Grown.of_free (ht : Tiled h bs) (hfree : getUsed h.mem h.lastBlock = false) :
    bs' = bs ∧ h'.lastBlock = h.lastBlock ∧
      getSize h'.mem h'.lastBlock = getSize h.mem h.lastBlock + n := by
  obtain ⟨hbs, hl, -⟩ | ⟨-, -, hu⟩ := g.blocks
  · have hend := g.tiled.last_end
    have hold := ht.last_end
    have hstop := g.stop
    exact ⟨hbs, hl, by omega⟩
  · rw [hfree] at hu
    cases hu

theorem Grown.of_used (hused : getUsed h.mem h.lastBlock = true) :
    h'.lastBlock = h.heapEnd ∧ getSize h'.mem h'.lastBlock = n := by
  obtain ⟨-, -, hf⟩ | ⟨-, hl, -⟩ := g.blocks
  · rw [hused] at hf
    cases hf
  · have hend := g.tiled.last_end
    have hstop := g.stop
    exact ⟨hl, by omega⟩

end Grown

theorem Tiled.mapPage_size (ht : Tiled h bs)
    (hb : b ∈ bs) : getSize (mapPage pages h.mem h.heapEnd) b = getSize h.mem b :=
  getSize_congr (fun _ _ h2 => mapPage_below (ht.header_below hb h2))

theorem Tiled.mapPage_used (ht : Tiled h bs)
    (hb : b ∈ bs) : getUsed (mapPage pages h.mem h.heapEnd) b = getUsed h.mem b :=
  getUsed_congr (fun _ _ h2 => mapPage_below (ht.header_below hb h2))

/-- One page behind a free last block: the block takes it in. -/
theorem enlargeStep_free (pages : Mem) (ht : Tiled h bs) (hfree : getUsed h.mem h.lastBlock = false)
    (hsz : getSize h.mem h.lastBlock + PAGE_SIZE < 2 ^ 32) (hend : h.heapEnd + PAGE_SIZE < 2 ^ 64) :
    ∃ h', enlargeStep pages h = some h' ∧ Grown h h' bs bs PAGE_SIZE := by
  have hlm := ht.last_mem
  have hmod := getSize_mod h.mem h.lastBlock
  have hp := ht.page
  unfold BLOCK_ALIGN at hmod
  unfold PAGE_SIZE at hsz hend hp
  obtain ⟨m', e, s, u, f⟩ := setSize_spec (m := mapPage pages h.mem h.heapEnd) (b := h.lastBlock)
    (n := getSize h.mem h.lastBlock + PAGE_SIZE) (by unfold BLOCK_ALIGN PAGE_SIZE; omega) hsz
  have hsame : ∀ x, x < h.heapEnd → (x < h.lastBlock ∨ h.lastBlock + 4 ≤ x) → m' x = h.mem x := by
    intro x h1 h2
    rw [f x h2, mapPage_below h1]
  have hother : ∀ c ∈ bs, c ≠ h.lastBlock → getSize m' c = getSize h.mem c := fun c hc hne =>
    getSize_congr (fun x h1 h2 => hsame x (ht.header_below hc h2) (ht.header_apart hlm hc hne h1 h2))
  refine ⟨{ h with mem := m', heapEnd := h.heapEnd + PAGE_SIZE }, ?_, ?_⟩
  · unfold enlargeStep
    simp only [ht.mapPage_used hlm, ht.mapPage_size hlm, hfree, Bool.false_eq_true, if_false,
      Nat.mod_eq_of_lt (show getSize h.mem h.lastBlock + PAGE_SIZE < 2 ^ 32 from hsz),
      Nat.mod_eq_of_lt (show h.heapEnd + PAGE_SIZE < 2 ^ 64 from hend), e, bind_eq_bind,
      bind_some]
  · refine ⟨⟨?_, ?_, ht.last, ?_⟩, ?_, rfl, rfl, hsame, Or.inl ⟨rfl, rfl, hfree⟩⟩
    · obtain ⟨front, hbs⟩ := ht.last
      subst hbs
      exact ht.tiles.grow s (fun c hc => hother c (by simp [hc]) (ht.ne_of_split (Or.inl hc)))
    · intro c hc
      have := ht.min c hc
      by_cases hcl : c = h.lastBlock
      · rw [hcl, s, ← hcl]; omega
      · rw [hother c hc hcl]; exact this
    · show (h.heapEnd + PAGE_SIZE) % PAGE_SIZE = 0
      unfold PAGE_SIZE; omega
    · rw [u, ht.mapPage_used hlm, hfree]

/-- One page behind a used last block: it becomes a new block, in use if the page reads so. -/
theorem enlargeStep_new (pages : Mem) (ht : Tiled h bs)
    (hused : getUsed h.mem h.lastBlock = true) (hend : h.heapEnd + PAGE_SIZE < 2 ^ 64) :
    ∃ h', enlargeStep pages h = some h' ∧ Tiled h' (bs ++ [h.heapEnd])
      ∧ h'.heapStart = h.heapStart ∧ h'.heapEnd = h.heapEnd + PAGE_SIZE
      ∧ h'.lastBlock = h.heapEnd ∧ (∀ x, x < h.heapEnd → h'.mem x = h.mem x)
      ∧ getUsed h'.mem h'.lastBlock = getUsed pages h.heapEnd := by
  have hlm := ht.last_mem
  have hp := ht.page
  have hle := ht.last_end
  obtain ⟨m1, e1, s1, u1, f1⟩ := setSize_spec (m := mapPage pages h.mem h.heapEnd) (b := h.heapEnd)
    (n := 0) rfl (by omega)
  obtain ⟨m2, e2, s2, u2, f2⟩ := setSize_spec (m := m1) (b := h.heapEnd)
    (n := PAGE_SIZE) (by decide) (by decide)
  have hsame : ∀ x, x < h.heapEnd → m2 x = h.mem x := by
    intro x hx
    rw [f2 x (Or.inl hx), f1 x (Or.inl hx), mapPage_below hx]
  have hold : ∀ c ∈ bs, getSize m2 c = getSize h.mem c := fun c hc =>
    getSize_congr (fun x _ h2 => hsame x (ht.header_below hc h2))
  refine ⟨{ h with mem := m2, heapEnd := h.heapEnd + PAGE_SIZE, lastBlock := h.heapEnd }, ?_,
    ⟨ht.tiles.snoc s2 hold, ?_, ⟨bs, rfl⟩, ?_⟩, rfl, rfl, rfl, hsame, ?_⟩
  · unfold enlargeStep
    have hin : h.heapEnd < h.heapEnd + PAGE_SIZE := by unfold PAGE_SIZE; omega
    have hz : (0 + PAGE_SIZE) % 2 ^ 32 = PAGE_SIZE := by decide
    simp only [ht.mapPage_used hlm, ht.mapPage_size hlm, hused, if_true, hle, assert_pos hp,
      Nat.mod_eq_of_lt (show h.heapEnd + PAGE_SIZE < 2 ^ 64 from hend), assert_pos hin, e1, s1, hz,
      e2, bind_eq_bind, bind_some]
  · intro c hc
    rcases mem_append.mp hc with hc | hc
    · rw [hold c hc]; exact ht.min c hc
    · rw [mem_singleton.mp hc, s2]; decide
  · show (h.heapEnd + PAGE_SIZE) % PAGE_SIZE = 0
    unfold PAGE_SIZE at hp ⊢; omega
  · rw [u2, u1, getUsed_congr (m := pages) (fun x h1 h2 => mapPage_inside h1 ?_)]
    unfold PAGE_SIZE; omega

theorem enlargeStep_used (pages : Mem) (ht : Tiled h bs)
    (hused : getUsed h.mem h.lastBlock = true) (hzero : getUsed pages h.heapEnd = false)
    (hend : h.heapEnd + PAGE_SIZE < 2 ^ 64) :
    ∃ h', enlargeStep pages h = some h' ∧ Grown h h' bs (bs ++ [h.heapEnd]) PAGE_SIZE := by
  obtain ⟨h', e, ht', hstart, hstop, hl, hsame, hu⟩ := enlargeStep_new pages ht hused hend
  exact ⟨h', e, ht', hu.trans hzero, hstart, hstop, fun x hx _ => hsame x hx,
    Or.inr ⟨rfl, hl, hused⟩⟩

/-- Growth composes, as long as the second part finds the last block free. -/
theorem Grown.trans {h1 h2 h3 : Heap} {b1 b2 b3 : List Nat} {m n : Nat}
    (h : Grown h1 h2 b1 b2 m) (h' : Grown h2 h3 b2 b3 n) : Grown h1 h3 b1 b3 (m + n) := by
  obtain ⟨rfl, hl, -⟩ := h'.of_free h.tiled h.free
  refine ⟨h'.tiled, h'.free, h'.start.trans h.start, by rw [h'.stop, h.stop, Nat.add_assoc], ?_, ?_⟩
  · intro x hx ho
    rw [h'.same x (by have := h.stop; omega) ho, h.same x hx (by rw [← hl]; exact ho)]
  · rw [hl]; exact h.blocks

theorem enlargeLoop_free (pages : Mem) : ∀ {n : Nat} {h : Heap} {bs : List Nat}, Tiled h bs →
    getUsed h.mem h.lastBlock = false → getSize h.mem h.lastBlock + n * PAGE_SIZE < 2 ^ 32 →
    h.heapEnd + n * PAGE_SIZE < 2 ^ 64 →
    ∃ h', enlargeLoop pages n h = some h' ∧ Grown h h' bs bs (n * PAGE_SIZE)
  | 0, h, bs, ht, hfree, _, _ =>
    ⟨h, rfl, ht, hfree, rfl, by omega, fun _ _ _ => rfl, Or.inl ⟨rfl, rfl, hfree⟩⟩
  | n + 1, h, bs, ht, hfree, hsz, hend => by
    rw [Nat.succ_mul] at hsz hend
    obtain ⟨h1, e1, g1⟩ := enlargeStep_free pages ht hfree (by omega) (by omega)
    obtain ⟨-, -, hsz1⟩ := g1.of_free ht hfree
    obtain ⟨h2, e2, g2⟩ := enlargeLoop_free pages (n := n) g1.tiled g1.free
      (by rw [hsz1]; omega) (by rw [g1.stop]; omega)
    refine ⟨h2, ?_, ?_⟩
    · rw [enlargeLoop, e1]; exact e2
    · rw [Nat.succ_mul, Nat.add_comm]
      exact g1.trans g2

/-- What a free last block has to offer. -/
def spare (h : Heap) : Nat := if getUsed h.mem h.lastBlock then 0 else getSize h.mem h.lastBlock

/-- The pages that are missing for the request, in numbers that do not wrap. -/
def missingPages (h : Heap) (size : Nat) : Nat := (size - spare h + 0xfff) / 0x1000

/-- A last block that does not fit has less to offer than is asked for. -/
theorem spare_le (hno : ¬ Fits h.mem size h.lastBlock) : spare h ≤ size := by
  unfold spare
  cases hu : getUsed h.mem h.lastBlock with
  | true => exact Nat.zero_le _
  | false => exact Nat.le_of_not_lt fun hlt => hno ⟨hu, hlt⟩

/-- The sum of `kmalloc` may wrap: then it asks for no page at all. -/
theorem neededPages_eq (hsize : size < 2 ^ 32) (hle : spare h ≤ size) :
    neededPages h.mem h.lastBlock size
      = if size - spare h + 0xfff < 2 ^ 32 then missingPages h size else 0 := by
  unfold neededPages missingPages
  show (sub32 size (spare h) + 0x1000 - 1) % 2 ^ 32 / 0x1000 = _
  rw [sub32_of_le hsize hle]
  split <;> omega

/-- The pages that are missing can be had: no size and no address wraps. -/
def CanGrow (h : Heap) (size : Nat) : Prop :=
  spare h + missingPages h size * PAGE_SIZE < 2 ^ 32 ∧
    h.heapEnd + missingPages h size * PAGE_SIZE < 2 ^ 64

instance (h : Heap) (size : Nat) : Decidable (CanGrow h size) :=
  inferInstanceAs (Decidable (_ ∧ _))

theorem CanGrow.neededPages_eq (hc : CanGrow h size)
    (hle : spare h ≤ size) : neededPages h.mem h.lastBlock size = missingPages h size := by
  obtain ⟨hc, -⟩ := hc
  unfold missingPages PAGE_SIZE at hc
  rw [KHeap.neededPages_eq (by omega) hle, if_pos (by omega)]

/--
Enlarging for a request nothing fits. The pages `kmalloc` computes are
enough: the last block is free afterwards and holds the request.
-/
theorem enlargeHeap_spec (pages : Mem) (ht : Tiled h bs)
    (hmin : BLOCK_MIN_SIZE ≤ size) (hno : ¬ Fits h.mem size h.lastBlock)
    (hzero : getUsed h.mem h.lastBlock = true → getUsed pages h.heapEnd = false)
    (hgrow : CanGrow h size) :
    ∃ h' bs', enlargeHeap pages h (neededPages h.mem h.lastBlock size) = some h'
      ∧ Grown h h' bs bs' (missingPages h size * PAGE_SIZE)
      ∧ size ≤ getSize h'.mem h'.lastBlock := by
  have hspare := spare_le hno
  have hneeded := hgrow.neededPages_eq hspare
  obtain ⟨hsize, hend⟩ := hgrow
  have hpages : size ≤ spare h + missingPages h size * PAGE_SIZE := by
    unfold missingPages PAGE_SIZE
    omega
  unfold BLOCK_MIN_SIZE HEADER_SIZE at hmin
  -- it is enough to run the loop: the closing assertion is `Tiled.last_end`
  suffices hloop : ∃ h' bs', enlargeLoop pages (missingPages h size) h = some h'
      ∧ Grown h h' bs bs' (missingPages h size * PAGE_SIZE)
      ∧ size ≤ getSize h'.mem h'.lastBlock by
    obtain ⟨h', bs', e, g, hs⟩ := hloop
    refine ⟨h', bs', ?_, g, hs⟩
    unfold enlargeHeap
    simp only [hneeded, e, assert_pos g.tiled.last_end, bind_eq_bind, bind_some]
  cases hu : getUsed h.mem h.lastBlock with
  | false =>
    have hs : spare h = getSize h.mem h.lastBlock := by
      unfold spare
      rw [hu]
      rfl
    rw [hs] at hsize hpages
    obtain ⟨h', e, g⟩ := enlargeLoop_free pages (n := missingPages h size) ht hu hsize hend
    exact ⟨h', bs, e, g, by rw [(g.of_free ht hu).2.2]; exact hpages⟩
  | true =>
    have hs : spare h = 0 := if_pos hu
    -- the first page becomes the new block, the others extend it
    obtain ⟨k, hk⟩ : ∃ k, missingPages h size = k + 1 :=
      Nat.exists_eq_succ_of_ne_zero (by rintro hz; rw [hz] at hpages; omega)
    rw [hk, Nat.succ_mul] at hend hsize hpages
    rw [hk]
    obtain ⟨h1, e1, g1⟩ := enlargeStep_used pages ht hu (hzero hu) (by omega)
    obtain ⟨-, hs1⟩ := g1.of_used hu
    obtain ⟨h2, e2, g2⟩ := enlargeLoop_free pages (n := k) g1.tiled g1.free
      (by rw [hs1]; omega) (by rw [g1.stop]; omega)
    refine ⟨h2, bs ++ [h.heapEnd], ?_, ?_, ?_⟩
    · rw [enlargeLoop, e1]; exact e2
    · rw [Nat.succ_mul, Nat.add_comm]
      exact g1.trans g2
    · rw [(g2.of_free g1.tiled g1.free).2.2, hs1]
      omega

/-! ## Taking a block -/

/-- The heap `h'` is `h` with block `b`, free or new, put to use for `size` bytes. -/
structure Allocates (h h' : Heap) (bs bs' : List Nat) (b size : Nat) : Prop where
  /-- The blocks still tile the heap. -/
  tiled : Tiled h' bs'
  mem : b ∈ bs'
  used : getUsed h'.mem b = true
  /-- The block is large enough. -/
  room : size ≤ getSize h'.mem b
  /-- The block was not in use before. -/
  fresh : b ∈ bs → getUsed h.mem b = false
  /-- Blocks in use stay where they are, with every one of their bytes. -/
  keep : ∀ c ∈ bs, getUsed h.mem c = true →
    c ∈ bs' ∧ ∀ x, c ≤ x → x < c + getSize h.mem c → h'.mem x = h.mem x
  /-- No other block comes into use. -/
  only : ∀ c ∈ bs', getUsed h'.mem c = true → c = b ∨ (c ∈ bs ∧ getUsed h.mem c = true)
  start : h'.heapStart = h.heapStart
  stop : h.heapEnd ≤ h'.heapEnd

theorem Tiled.used_apart (ht : Tiled h bs) {c : Nat}
    (hb : b ∈ bs) (hc : c ∈ bs) (hfree : getUsed h.mem b = false) (hused : getUsed h.mem c = true)
    (h1 : c ≤ x) (h2 : x < c + getSize h.mem c) : x < b ∨ b + getSize h.mem b ≤ x := by
  have hne : b ≠ c := by
    intro he
    rw [he, hused] at hfree
    exact absurd hfree (by simp)
  rcases ht.tiles.disjoint hb hc hne with hd | hd <;> omega

theorem allocates_whole (ht : Tiled h bs) (hb : b ∈ bs)
    (hfree : getUsed h.mem b = false) (hroom : size ≤ getSize h.mem b) :
    Allocates h { h with mem := setUsed h.mem b true } bs bs b size := by
  have hmb := ht.min b hb
  unfold BLOCK_MIN_SIZE HEADER_SIZE at hmb
  refine ⟨ht.setUsed hb true, hb, getUsed_setUsed .., by rwa [getSize_setUsed], fun _ => hfree,
    ?_, ?_, rfl, Nat.le_refl _⟩
  · intro c hc hu
    refine ⟨hc, fun x h1 h2 => setUsed_outside ?_⟩
    rcases ht.used_apart hb hc hfree hu h1 h2 with hd | hd <;> omega
  · intro c hc hu
    by_cases hcb : c = b
    · exact Or.inl hcb
    · refine Or.inr ⟨hc, ?_⟩
      rw [← hu]
      exact (getUsed_congr (fun x h1 h2 => setUsed_outside (ht.header_apart hb hc hcb h1 h2))).symm

theorem allocates_split {front back : List Nat} {m' : Mem}
    (ht : Tiled h (front ++ b :: back)) (hfree : getUsed h.mem b = false)
    (hmin : BLOCK_MIN_SIZE ≤ size) (hroom : size + BLOCK_MIN_SIZE ≤ getSize h.mem b)
    (hs1 : getSize m' b = size) (hs2 : getSize m' (b + size) = getSize h.mem b - size)
    (hu2 : getUsed m' (b + size) = false)
    (hf : ∀ x, (x < b ∨ b + 4 ≤ x) → (x < b + size ∨ b + size + 4 ≤ x) → m' x = h.mem x) :
    Allocates h { h with mem := setUsed m' b true,
                         lastBlock := if b = h.lastBlock then b + size else h.lastBlock }
      (front ++ b :: back) (front ++ b :: (b + size) :: back) b size := by
  have hb : b ∈ front ++ b :: back := by simp
  have hmin' := hmin
  have hroom' := hroom
  unfold BLOCK_MIN_SIZE HEADER_SIZE at hmin' hroom'
  have hout : ∀ x, (x < b ∨ b + getSize h.mem b ≤ x) → m' x = h.mem x :=
    fun x hx => hf x (by omega) (by omega)
  have ht' := (ht.split hmin hroom hs1 hs2 (fun x hx _ => hout x hx)).setUsed
    (b := b) (by simp) true
  refine ⟨ht', by simp, getUsed_setUsed .., by rw [getSize_setUsed, hs1], fun _ => hfree,
    ?_, ?_, rfl, Nat.le_refl _⟩
  · intro c hc hu
    refine ⟨?_, fun x h1 h2 => ?_⟩
    · simp only [mem_append, mem_cons] at hc ⊢
      rcases hc with hc | hc | hc
      · exact Or.inl hc
      · exact Or.inr (Or.inl hc)
      · exact Or.inr (Or.inr (Or.inr hc))
    · have hx := ht.used_apart hb hc hfree hu h1 h2
      show setUsed m' b true x = h.mem x
      rw [setUsed_outside (by omega), hout x hx]
  · intro c hc hu
    by_cases hcb : c = b
    · exact Or.inl hcb
    · have hc2 : c ≠ b + size := by
        intro he
        subst he
        have : getUsed (setUsed m' b true) (b + size) = getUsed m' (b + size) :=
          getUsed_congr (fun x h1 h2 => setUsed_outside (by omega))
        rw [this, hu2] at hu
        exact absurd hu (by simp)
      have hc' : c ∈ front ++ b :: back := by
        simp only [mem_append, mem_cons] at hc ⊢
        rcases hc with hc | hc | hc | hc
        · exact Or.inl hc
        · exact Or.inr (Or.inl hc)
        · exact absurd hc hc2
        · exact Or.inr (Or.inr hc)
      refine Or.inr ⟨hc', ?_⟩
      rw [← hu]
      refine (getUsed_congr (fun x h1 h2 => ?_)).symm
      have hmc := ht.min c hc'
      unfold BLOCK_MIN_SIZE HEADER_SIZE at hmc
      have hx : x < b ∨ b + getSize h.mem b ≤ x := by
        rcases ht.tiles.disjoint hb hc' (Ne.symm hcb) with hd | hd <;> omega
      show setUsed m' b true x = h.mem x
      rw [setUsed_outside (by omega), hout x hx]

/-- Taking the last block of a heap that has just grown. -/
theorem Grown.allocates {h₁ h' : Heap} {bs1 bs' : List Nat} {n : Nat}
    (ht : Tiled h bs) (g : Grown h h₁ bs bs1 n) (ha : Allocates h₁ h' bs1 bs' h₁.lastBlock size) :
    Allocates h h' bs bs' h₁.lastBlock size := by
  have hsub : ∀ c ∈ bs, c ∈ bs1 := by
    intro c hc
    obtain ⟨hb, _⟩ | ⟨hb, _⟩ := g.blocks <;> rw [hb]
    · exact hc
    · simp [hc]
  have hfresh : ∀ c ∈ bs, c = h₁.lastBlock → getUsed h.mem c = false := by
    intro c hc he
    obtain ⟨_, hl, hf⟩ | ⟨_, hl, _⟩ := g.blocks
    · rw [he, hl]; exact hf
    · have := ht.header_below hc (x := c) (by omega)
      omega
  have hne : ∀ c ∈ bs, getUsed h.mem c = true → c ≠ h₁.lastBlock := by
    intro c hc hu he
    rw [hfresh c hc he] at hu
    exact absurd hu (by simp)
  have hhead : ∀ c ∈ bs, c ≠ h₁.lastBlock → ∀ x, c ≤ x → x < c + 4 → h₁.mem x = h.mem x :=
    fun c hc hcl x h1 h2 => g.same x (ht.header_below hc h2)
      (g.tiled.header_apart g.tiled.last_mem (hsub c hc) hcl h1 h2)
  refine ⟨ha.tiled, ha.mem, ha.used, ha.room, fun hc => hfresh _ hc rfl, ?_, ?_,
    ha.start.trans g.start, ?_⟩
  · intro c hc hu
    have hcl := hne c hc hu
    have hu1 : getUsed h₁.mem c = true := by rw [getUsed_congr (hhead c hc hcl)]; exact hu
    have hs1 : getSize h₁.mem c = getSize h.mem c := getSize_congr (hhead c hc hcl)
    obtain ⟨hmem, hbytes⟩ := ha.keep c (hsub c hc) hu1
    refine ⟨hmem, fun x h1 h2 => ?_⟩
    rw [hbytes x h1 (by rw [hs1]; exact h2)]
    have hml := g.tiled.min _ g.tiled.last_mem
    have hx := g.tiled.used_apart g.tiled.last_mem (hsub c hc) g.free hu1 h1 (by rw [hs1]; exact h2)
    have := (ht.tiles.mem_bounds hc).2
    unfold BLOCK_MIN_SIZE HEADER_SIZE at hml
    exact g.same x (by omega) (by omega)
  · intro c hc hu
    rcases ha.only c hc hu with he | ⟨hc1, hu1⟩
    · exact Or.inl he
    · have hcl : c ≠ h₁.lastBlock := by
        intro he
        rw [he, g.free] at hu1
        exact absurd hu1 (by simp)
      have hcb : c ∈ bs := by
        obtain ⟨hb, _⟩ | ⟨hb, hl, _⟩ := g.blocks
        · rwa [hb] at hc1
        · rw [hb] at hc1
          rcases mem_append.mp hc1 with hc1 | hc1
          · exact hc1
          · exact absurd ((mem_singleton.mp hc1).trans hl.symm) hcl
      exact Or.inr ⟨hcb, by rw [← getUsed_congr (hhead c hcb hcl)]; exact hu1⟩
  · have := g.stop
    have := ha.stop
    omega

/-- The end of `kmalloc`: the free last block is cut when what is left makes a block. -/
theorem takeLast_spec (ht : Tiled h bs)
    (hfree : getUsed h.mem h.lastBlock = false) (halign : size % BLOCK_ALIGN = 0)
    (hmin : BLOCK_MIN_SIZE ≤ size) (hroom : size ≤ getSize h.mem h.lastBlock) :
    ∃ h' bs', takeLast h size = some (h', getData h.lastBlock)
      ∧ Allocates h h' bs bs' h.lastBlock size := by
  have hlm := ht.min _ ht.last_mem
  have hsub : sub32 (getSize h.mem h.lastBlock) BLOCK_MIN_SIZE
      = getSize h.mem h.lastBlock - BLOCK_MIN_SIZE := sub32_of_le (getSize_lt _ _) hlm
  unfold takeLast
  simp only [assert_pos hroom, bind_eq_bind, bind_some]
  by_cases hcut : size ≤ sub32 (getSize h.mem h.lastBlock) BLOCK_MIN_SIZE
  · have hfit : size + BLOCK_MIN_SIZE ≤ getSize h.mem h.lastBlock := by omega
    obtain ⟨m', e, s1, s2, _, u2, f⟩ := splitBlock_spec hfree halign hmin hfit
    obtain ⟨front, hbs⟩ := ht.last
    subst hbs
    have ha := allocates_split ht hfree hmin hfit s1 s2 u2 f
    simp only [if_true] at ha
    refine ⟨_, _, ?_, ha⟩
    rw [if_pos hcut]
    simp only [e, assert_pos (ha.room : size ≤ getSize (setUsed m' h.lastBlock true) h.lastBlock),
      assert_pos (ha.tiled.last_end : h.lastBlock + size
        + getSize (setUsed m' h.lastBlock true) (h.lastBlock + size) = h.heapEnd), bind_some]
  · have ha := allocates_whole ht ht.last_mem hfree hroom
    refine ⟨_, _, ?_, ha⟩
    rw [if_neg hcut]
    simp only [assert_pos (ha.room : size ≤ getSize (setUsed h.mem h.lastBlock true) h.lastBlock),
      assert_pos (ha.tiled.last_end : h.lastBlock
        + getSize (setUsed h.mem h.lastBlock true) h.lastBlock = h.heapEnd), bind_some]

/-! ## `kmalloc` -/

/-- The rounded request plus one page fits in 32 bits. -/
def RequestOk (size : Nat) : Prop :=
  (size + HEADER_SIZE + (BLOCK_ALIGN - 1)) / BLOCK_ALIGN * BLOCK_ALIGN + PAGE_SIZE ≤ 2 ^ 32

theorem roundRequest_spec (h0 : size ≠ 0) (hok : RequestOk size) :
    roundRequest size % BLOCK_ALIGN = 0 ∧ BLOCK_MIN_SIZE ≤ roundRequest size
      ∧ size + HEADER_SIZE ≤ roundRequest size ∧ roundRequest size + PAGE_SIZE ≤ 2 ^ 32 := by
  unfold RequestOk HEADER_SIZE BLOCK_ALIGN PAGE_SIZE at hok
  unfold roundRequest intAlignSup BLOCK_MIN_SIZE HEADER_SIZE BLOCK_ALIGN PAGE_SIZE
  omega

/-- Should the request make the heap grow, its end stays a 64-bit address. -/
def NoWrap (h : Heap) (size : Nat) : Prop :=
  ∀ block, searchAll h (roundRequest size) = some (.exhausted block) →
    h.heapEnd + neededPages h.mem block (roundRequest size) * PAGE_SIZE < 2 ^ 64

/-- A request that leaves a page of its 32 bits, and the end of the heap where it can be. -/
theorem canGrow_of_request (hsize : size + PAGE_SIZE ≤ 2 ^ 32) (hle : spare h ≤ size)
    (hend : h.heapEnd + neededPages h.mem h.lastBlock size * PAGE_SIZE < 2 ^ 64) :
    CanGrow h size := by
  unfold PAGE_SIZE at hsize
  rw [neededPages_eq (by omega) hle, if_pos (by omega)] at hend
  refine ⟨?_, hend⟩
  unfold missingPages PAGE_SIZE
  omega

/-- A block that fits is put to use, cut in two or whole. -/
theorem allocFrom_at (pages : Mem) (ht : Tiled h bs)
    (hb : b ∈ bs) (hfit : Fits h.mem size b) (halign : size % BLOCK_ALIGN = 0)
    (hmin : BLOCK_MIN_SIZE ≤ size) :
    ∃ h' bs', allocFrom pages h size (Search.at h.mem size b) = some (h', getData b)
      ∧ Allocates h h' bs bs' b size := by
  obtain ⟨hfree, hlt⟩ := hfit
  have hsub : sub32 (getSize h.mem b) BLOCK_MIN_SIZE = getSize h.mem b - BLOCK_MIN_SIZE :=
    sub32_of_le (getSize_lt _ _) (ht.min b hb)
  unfold Search.at
  by_cases htake : sub32 (getSize h.mem b) BLOCK_MIN_SIZE ≤ size
  · have ha := allocates_whole ht hb hfree (Nat.le_of_lt hlt)
    refine ⟨_, _, ?_, ha⟩
    rw [if_pos htake, allocFrom]
    simp only [assert_pos (ha.room : size ≤ getSize (setUsed h.mem b true) b), bind_eq_bind,
      bind_some]
  · have hroom : size + BLOCK_MIN_SIZE ≤ getSize h.mem b := by omega
    obtain ⟨m', e, s1, s2, _, u2, f⟩ := splitBlock_spec hfree halign hmin hroom
    obtain ⟨front, back, rfl⟩ := List.append_of_mem hb
    have ha := allocates_split ht hfree hmin hroom s1 s2 u2 f
    refine ⟨_, _, ?_, ha⟩
    -- the rest of the block is untouched by the final `setUsed`
    have hrest : ∀ x, b + size ≤ x → x < b + size + 4 → setUsed m' b true x = m' x := by
      intro x h1 h2
      unfold BLOCK_MIN_SIZE HEADER_SIZE at hmin
      exact setUsed_outside (by omega)
    have a1 : getUsed (setUsed m' b true) (b + size) = false := by
      rw [getUsed_congr hrest, u2]
    have a2 : BLOCK_MIN_SIZE ≤ getSize (setUsed m' b true) (b + size) := by
      rw [getSize_congr hrest, s2]; omega
    rw [if_neg htake, allocFrom]
    simp only [e, assert_pos a1, assert_pos a2, assert_pos
      (ha.room : size ≤ getSize (setUsed m' b true) b), bind_eq_bind, bind_some]

/-- When no block fits, the heap grows and its last block is taken. -/
theorem allocFrom_exhausted (ht : Tiled h bs)
    (halign : size % BLOCK_ALIGN = 0) (hmin : BLOCK_MIN_SIZE ≤ size)
    (hno : ¬ Fits h.mem size h.lastBlock)
    (hzero : getUsed h.mem h.lastBlock = true → getUsed pages h.heapEnd = false)
    (hgrow : CanGrow h size) :
    ∃ h' bs' b, allocFrom pages h size (.exhausted h.lastBlock) = some (h', getData b)
      ∧ Allocates h h' bs bs' b size := by
  obtain ⟨h1, bs1, e1, g, hroom⟩ := enlargeHeap_spec pages ht hmin hno hzero hgrow
  obtain ⟨h', bs', e, ha⟩ := takeLast_spec g.tiled g.free halign hmin hroom
  refine ⟨h', bs', h1.lastBlock, ?_, g.allocates ht ha⟩
  rw [allocFrom]
  simp only [assert_pos trivial, e1, e, bind_eq_bind, bind_some]

/-- A request succeeds, with no assertion failing, and puts one block to use. -/
theorem kmalloc_spec (ht : Tiled h bs)
    (h0 : size ≠ 0) (hok : RequestOk size) (hwrap : NoWrap h size)
    (hzero : getUsed pages h.heapEnd = false) :
    ∃ h' bs' b, kmalloc pages h size = some (h', getData b)
      ∧ Allocates h h' bs bs' b (roundRequest size) := by
  obtain ⟨halign, hmin, _, hsize⟩ := roundRequest_spec h0 hok
  unfold kmalloc
  rw [if_neg h0]
  rcases searchAll_spec (roundRequest size) ht with
    ⟨front, b, back, hbs, _, hfit, hs⟩ | ⟨hno, hs⟩
  · obtain ⟨h', bs', e, ha⟩ := allocFrom_at pages ht (b := b) (by rw [hbs]; simp)
      hfit halign hmin
    exact ⟨h', bs', b, by rw [hs, bind_some, e], ha⟩
  · have hlast := hno _ ht.last_mem
    obtain ⟨h', bs', b, e, ha⟩ := allocFrom_exhausted ht halign hmin hlast (fun _ => hzero)
      (canGrow_of_request hsize (spare_le hlast) (hwrap _ hs))
    exact ⟨h', bs', b, by rw [hs, bind_some, e], ha⟩

end Flix.KHeap

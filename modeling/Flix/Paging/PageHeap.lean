import Flix.Paging.Pool
import Flix.Paging.Cloning
import Flix.Paging.Teardown

/-!
# The books of the page heaps

`PageHeap.cpp`: which blocks are taken, by whom, and where their pages are. A block of
the heap of directories is in the pool, in the hand of a caller, or a table that a
directory leads to, and it is one of the three exactly if its bit is set. A block that
is taken has its pages in the kernel directory, and one that is not has none.

All this is disturbed in the middle of an allocation, which maps pages and may take a
block out of the pool for a table on the way. `Books` is what holds between two calls;
`held` are the blocks that callers have, each with the address it was handed out with.
-/

namespace Flix.Paging

open Function Radix

variable {w w₁ w' : World} {R : Nat → Prop} {S N : Nat} {held : List (Nat × Nat)}

/-! ## Where a page is -/

/-- The kernel directory has a page at `v`, and `phys` is where it is. An entry keeps 40 bits of
the frame's number. -/
structure At (w : World) (v : VAddr) (phys : Nat) : Prop where
  p : (pte w w.kernel.root v).p = true
  frame : ∃ f, phys = f * PAGE_SIZE ∧ (pte w w.kernel.root v).base = f % 2 ^ 40 ∧
    (f < 2 ^ 40 ∨ f < w.frames.length)

variable {v : VAddr} {phys u b r : Nat}

theorem At.keep (h : At w v phys) (hv : pte w' w'.kernel.root v = pte w w.kernel.root v)
    (hf : w.frames.length ≤ w'.frames.length) : At w' v phys := by
  obtain ⟨f, hphys, hbase, hlt⟩ := h.frame
  exact ⟨by rw [hv]; exact h.p, f, hphys, by rw [hv]; exact hbase, by omega⟩

/-- As long as there are no more frames than an entry can name, nothing is cut off. -/
theorem At.exact (h : At w v phys) (hf : w.frames.length ≤ 2 ^ 40) :
    phys = (pte w w.kernel.root v).base * PAGE_SIZE := by
  obtain ⟨f, hphys, hbase, hlt⟩ := h.frame
  rw [hbase, Nat.mod_eq_of_lt (by omega), hphys]

/-! ## The heap of directories -/

/-- What holds between two calls. -/
structure Books (R : Nat → Prop) (S N : Nat) (w : World) (held : List (Nat × Nat)) : Prop where
  sound : Sound w R S
  idle : w.heap.allocating = false
  limits : 16 ≤ N ∧ N ≤ 2 ^ 16
  room : w.heap.map.length ≤ N
  fresh : ∀ {x}, x ∈ held → Fresh w x.1
  nodup : (held.map Prod.fst).Nodup
  /-- What is neither in the pool nor a table is in somebody's hand. -/
  live : ∀ {b}, Stray R w b → b ∈ held.map Prod.fst
  count : w.heap.usedBlockCount = w.heap.map.count true
  mapped : ∀ {b n}, 16 ≤ b → n < 2 → w.heap.map[b]? = some true →
    (pte w w.kernel.root (heapPage b n)).p = true
  vacant : ∀ {b n}, 16 ≤ b → b < N → n < 2 → w.heap.map[b]? ≠ some true →
    (pte w w.kernel.root (heapPage b n)).p = false
  static : ∀ {b}, b < 16 → At w (heapPage b 0) (w.pageHeapStart + b * PAGE_SIZE * 2)
  phys : ∀ {x}, x ∈ held ++ w.heap.pool → At w (heapPage x.1 0) x.2

/-- A step that the heap does not see: its pages are as before, and no block is taken or given
back. -/
theorem Books.keep {held' : List (Nat × Nat)} (h : Books R S N w held) (hs : Sound w' R S)
    (hmap : w'.heap.map = w.heap.map) (hidle : w'.heap.allocating = w.heap.allocating)
    (hcount : w'.heap.usedBlockCount = w.heap.usedBlockCount) (hk : w'.kernel = w.kernel)
    (hstart : w'.pageHeapStart = w.pageHeapStart) (hf : w.frames.length ≤ w'.frames.length)
    (hpte : ∀ b n, b < N → n < 2 →
      pte w' w.kernel.root (heapPage b n) = pte w w.kernel.root (heapPage b n))
    (hfresh : ∀ {x}, x ∈ held' → Fresh w' x.1) (hnodup : (held'.map Prod.fst).Nodup)
    (hlive : ∀ {b}, Stray R w' b → b ∈ held'.map Prod.fst)
    (hsub : ∀ {x}, x ∈ held' ++ w'.heap.pool → x ∈ held ++ w.heap.pool) :
    Books R S N w' held' := by
  have hlim := h.limits
  have hpte' : ∀ b n, b < N → n < 2 →
      pte w' w'.kernel.root (heapPage b n) = pte w w.kernel.root (heapPage b n) := by
    rw [hk]
    exact hpte
  have hlt : ∀ {b : Nat}, w.heap.map[b]? = some true → b < N :=
    fun hb => (getElem?_lt hb).trans_le h.room
  -- who is in the pool or in a hand is taken
  have htaken : ∀ {x}, x ∈ held ++ w.heap.pool → w.heap.map[x.1]? = some true := by
    intro x hx
    rcases mem_append.mp hx with hx | hx
    · exact (h.fresh hx).used
    · exact (h.sound.poolBlock hx).1
  refine ⟨hs, hidle.trans h.idle, hlim, by rw [hmap]; exact h.room, hfresh, hnodup, hlive,
    by rw [hcount, hmap]; exact h.count, ?_, ?_, ?_, ?_⟩
  · intro b n hb hn hused
    rw [hmap] at hused
    rw [hpte' b n (hlt hused) hn]
    exact h.mapped hb hn hused
  · intro b n hb hbN hn hfree
    rw [hmap] at hfree
    rw [hpte' b n hbN hn]
    exact h.vacant hb hbN hn hfree
  · intro b hb
    rw [hstart]
    exact (h.static hb).keep (hpte' b 0 (by omega) (by omega)) hf
  · intro x hx
    have hx := hsub hx
    exact (h.phys hx).keep (hpte' x.1 0 (hlt (htaken hx)) (by omega)) hf

/-! ## Allocation -/

/-- The pages of the other blocks, and all if the block is static. -/
theorem Took.pte_other {n : Nat} (ht : Took R S w w₁ u phys) (hu : u < 2 ^ 16)
    (hb : b < 2 ^ 16) (hn : n < 2) (hr : R r) (hne : b ≠ u ∨ u < 16) :
    pte w₁ r (heapPage b n) = pte w r (heapPage b n) := by
  rcases Nat.lt_or_ge u 16 with hlt | hge
  · exact (ht.static hlt).2 _ hr
  · obtain ⟨f, -, -, -, -, hother⟩ := ht.pages hge
    refine hother _ hr fun n' hn' hs => ?_
    obtain ⟨hbu, -⟩ := slotOf_heapPage hb hu hn hn' hs
    omega

theorem Took.pool_sub (ht : Took R S w w₁ u phys) {x : Nat × Nat}
    (hx : x ∈ w₁.heap.pool) : x ∈ w.heap.pool := by
  rw [ht.pool] at hx
  split at hx
  · exact hx
  · exact List.mem_of_mem_tail hx

/-- Unless the way is the one to the block's own pages, the slot for a new table is still empty. -/
theorem Took.next_none {t i : Nat} {q : List Nat} {n : Node Entry} (ht : Took R S w w₁ u phys)
    (h : Sound w R S) (hr : R r) (hq : follow w.tables r q = some t) (hP : q ++ [i] ≠ region u)
    (hn : w.tables t = some n) (hi : n.next i = none) :
    ∃ n1, w₁.tables t = some n1 ∧ n1.next i = none := by
  obtain ⟨n1, hn1, -⟩ := ht.alloc.ext.node hn
  have hother : ¬ (t = S ∧ i = 256 + u / 256) := by
    rintro ⟨rfl, rfl⟩
    have hpath := h.path_unique hr h.kernel hq (h.rootShares h.kernel)
    exact hP (by rw [hpath]; rfl)
  have hslot := ht.slots hother
  rw [slot, slot, hn1, hn] at hslot
  exact ⟨n1, hn1, hslot.trans hi⟩

theorem allocBlock_room (hidle : w.heap.allocating = false)
    (hroom : w.heap.map.length ≤ 2 ^ 16) (ha : allocBlock w = some (w₁, u, phys)) :
    w.nextBlock < 2 ^ 16 := by
  have hle := (nextBlock_spec w).1
  rcases Nat.lt_or_ge w.nextBlock (2 ^ 16) with hlt | hge
  · exact hlt
  · -- then the map is full, and a block beyond it does not fit
    have hfull : w.nextBlock = 2 ^ 16 := by omega
    rw [allocBlock_eq hidle] at ha
    exact allocPage_room ha hfull.le

section Books

variable (h : Books R S N w held)
include h

theorem Books.lt {b : Nat} (hb : w.heap.map[b]? = some true) : b < 2 ^ 16 := by
  have hlt := getElem?_lt hb
  have hroom := h.room
  have hlim := h.limits
  omega

/-- A block more in somebody's hand. -/
theorem Books.alloc {u phys : Nat} (ha : allocBlock w = some (w₁, u, phys))
    (hroom : w₁.heap.map.length ≤ N) :
    u = w.nextBlock ∧ Took R S w w₁ u phys ∧ Books R S N w₁ ((u, phys) :: held) := by
  have hlim := h.limits
  have hnext := allocBlock_room h.idle (h.room.trans hlim.2) ha
  obtain ⟨hu, ht⟩ := allocBlock_took h.sound h.idle hnext ha
  have hu16 : u < 2 ^ 16 := hu ▸ hnext
  have hk : w₁.kernel = w.kernel := ht.alloc.ext.kernel
  have hf : w.frames.length ≤ w₁.frames.length := ht.alloc.grown.steps.frames_le
  have hkr : R w.kernel.root := h.sound.kernel
  -- the pages of the other blocks are where they were
  have hpte : ∀ {b n}, b < 2 ^ 16 → n < 2 → b ≠ u ∨ u < 16 →
      pte w₁ w₁.kernel.root (heapPage b n) = pte w w.kernel.root (heapPage b n) := by
    intro b n hb hn hne
    rw [hk]
    exact ht.pte_other hu16 hb hn hkr hne
  have hold : ∀ {x}, x ∈ held ++ w₁.heap.pool →
      x ∈ held ++ w.heap.pool ∧ w.heap.map[x.1]? = some true := by
    intro x hx
    rcases mem_append.mp hx with hx | hx
    · exact ⟨mem_append_left _ hx, (h.fresh hx).used⟩
    · have hx := ht.pool_sub hx
      exact ⟨mem_append_right _ hx, (h.sound.poolBlock hx).1⟩
  refine ⟨hu, ht, ht.alloc.sound, ht.alloc.grown.allocating.trans h.idle, hlim, hroom, ?_, ?_, ?_, ?_, ?_, ?_, ?_, ?_⟩
  · intro x hx
    rcases mem_cons.mp hx with rfl | hx
    · exact ht.alloc.block
    · exact ht.alloc.grown.fresh (h.fresh hx)
  · refine nodup_cons.mpr ⟨fun hmem => ?_, h.nodup⟩
    obtain ⟨x, hx, hxu⟩ := mem_map.mp hmem
    have hxu : x.1 = u := hxu
    exact ht.free (hxu ▸ (h.fresh hx).used)
  · intro b hb
    rcases ht.alloc.stray hb with hb | rfl
    · exact mem_cons_of_mem _ (h.live hb)
    · exact mem_cons_self
  · rw [ht.count, ht.bits, hu, World.roomy, World.nextBlock, count_take, h.count]
  · intro b n hb hn hused
    rcases (ht.map b).mp hused with hused | rfl
    · rw [hpte (h.lt hused) hn (.inl fun hbu => ht.free (hbu ▸ hused))]
      exact h.mapped hb hn hused
    · obtain ⟨f, -, -, -, hpage, -⟩ := ht.pages hb
      rw [hk, hpage n hn _ hkr rfl]
      rfl
  · intro b n hb hbN hn hfree
    obtain ⟨hfree, hne⟩ := not_or.mp ((not_congr (ht.map b)).mp hfree)
    rw [hpte (by omega) hn (.inl hne)]
    exact h.vacant hb hbN hn hfree
  · intro b hb
    rw [ht.alloc.ext.start]
    exact (h.static hb).keep (hpte (by omega) (by omega) (by omega)) hf
  · intro x hx
    rcases mem_cons.mp hx with rfl | hx
    · rcases Nat.lt_or_ge u 16 with hlt | hge
      · obtain ⟨hphys, -⟩ := ht.static hlt
        rw [hphys]
        exact (h.static hlt).keep (hpte hu16 (by omega) (.inr hlt)) hf
      · obtain ⟨f, hphys, hused, -, hpage, -⟩ := ht.pages hge
        have hentry := hpage 0 (by omega) (heapPage u 0) hkr rfl
        rw [← hk] at hentry
        refine ⟨by rw [hentry]; rfl, f 0, hphys, ?_, .inr (getElem?_lt (hused 0 (by omega)).2)⟩
        rw [hentry]
        exact congrArg (· % 2 ^ 40) (Nat.mul_div_cancel _ (by decide))
    · obtain ⟨hx, hused⟩ := hold hx
      exact (h.phys hx).keep (hpte (h.lt hused) (by omega)
        (.inl fun hbu => ht.free (hbu ▸ hused))) hf

end Books

/-- The block goes to the pool. -/
theorem Books.push (h : Books R S N w ((u, phys) :: held)) :
    Books R S N { w with heap := { w.heap with pool := (u, phys) :: w.heap.pool } } held := by
  have hu := h.fresh mem_cons_self
  have hnodup := nodup_cons.mp h.nodup
  refine h.keep (h.sound.push hu) rfl rfl rfl rfl rfl le_rfl (fun _ _ _ _ => rfl) ?_ hnodup.2 ?_ ?_
  · intro x hx
    have hx' := h.fresh (mem_cons_of_mem _ hx)
    refine ⟨hx'.noTable, hx'.used, fun b hb => ?_⟩
    rcases mem_cons.mp hb with rfl | hb
    · intro hc
      exact hnodup.1 (mem_map.mpr ⟨x, hx, hc.symm⟩)
    · exact hx'.noPool b hb
  · intro b hb
    have hold : Stray R w b :=
      ⟨hb.used, fun x hx => hb.noPool x (mem_cons_of_mem _ hx), hb.unreached⟩
    rcases mem_cons.mp (h.live hold) with hbu | hmem
    · exact absurd hbu.symm (hb.noPool (u, phys) mem_cons_self)
    · exact hmem
  · intro x hx
    simp only [mem_append, mem_cons] at hx ⊢
    tauto

/-- What keeps the books, as long as there is room. -/
structure Carries (R : Nat → Prop) (S N : Nat) (held : List (Nat × Nat)) (w w' : World) : Prop where
  length_le : w.heap.map.length ≤ w'.heap.map.length
  books : w'.heap.map.length ≤ N → Books R S N w held → Books R S N w' held

theorem Carries.refl (w : World) : Carries R S N held w w := ⟨le_rfl, fun _ h => h⟩

theorem Carries.trans {a b c : World} (h : Carries R S N held a b) (h' : Carries R S N held b c) :
    Carries R S N held a c :=
  ⟨h.length_le.trans h'.length_le,
    fun hc hb => h'.books hc (h.books (h'.length_le.trans hc) hb)⟩

theorem Books.refillPool (h : Books R S N w held) (hr : refillPool w = some w')
    (hroom : w'.heap.map.length ≤ N) : Books R S N w' held := by
  have hkeep : Sound w' R S ∧ Carries R S N held w w' := by
    refine refillPool_induct (P := fun x => Sound x R S ∧ Carries R S N held w x)
      ⟨h.sound, .refl w⟩ (fun {x w₁ u phys} hx ha => ?_) hr
    obtain ⟨hs, hcarry⟩ := hx
    have halloc := allocBlock_spec hs ha
    -- the map only grows, so there was room all the way
    have hlen : x.heap.map.length ≤ w₁.heap.map.length := halloc.grown.steps.length_le
    refine ⟨halloc.sound.push halloc.block, hcarry.length_le.trans hlen, fun hroom hb => ?_⟩
    obtain ⟨-, -, hbooks⟩ := (hcarry.books (hlen.trans hroom) hb).alloc ha hroom
    exact hbooks.push
  exact hkeep.2.books hroom h

/-! ## Tables -/

/-- A blank table in a slot that was empty is not seen. -/
theorem pte_link {r' t i : Nat} {q : List Nat} {n : Node Entry} {e : Entry} (h : Sound w R S)
    (hu : Fresh w u) (hr : R r) (hq : follow w.tables r q = some t) (hn : w.tables t = some n)
    (hi : n.next i = none) (hlen : q.length < 3) (hr' : R r') (v : VAddr) :
    pte (w.link t i u e) r' v = pte w r' v := by
  rcases (Extends.refl w).pte_create h hu hr hq hn hi h hlen hr' v with hv | ⟨hv, hz⟩
  · exact hv
  · rw [hv, hz]

/-- The block becomes a table, in a slot that was empty. -/
theorem Books.link {t i : Nat} {q : List Nat} {n : Node Entry} {e : Entry}
    (h : Books R S N w ((u, phys) :: held)) (hr : R r) (hq : follow w.tables r q = some t)
    (hn : w.tables t = some n) (hi : n.next i = none) (hlen : q.length < 3) :
    Books R S N (w.link t i u e) held := by
  have hu := h.fresh mem_cons_self
  have hnodup := nodup_cons.mp h.nodup
  have ht : (w.tables t).isSome := by rw [hn]; rfl
  have hext := (Extends.refl w).create (e := e) h.sound hu hr hq hn hi
  have hview : ∀ {r'} (v : VAddr), R r' → pte (w.link t i u e) r' v = pte w r' v :=
    fun v hr' => pte_link h.sound hu hr hq hn hi hlen hr' v
  refine h.keep ((Extends.refl w).create_sound h.sound hu hr hq hn hi h.sound hlen) rfl rfl rfl rfl
    rfl le_rfl (fun _ _ _ _ => hview _ h.sound.kernel) ?_ hnodup.2 ?_ ?_
  · intro x hx
    refine (h.fresh (mem_cons_of_mem _ hx)).link ht fun hxu => ?_
    exact hnodup.1 (mem_map.mpr ⟨x, hx, hxu⟩)
  · intro b hb
    have hold : Stray R w b :=
      ⟨hb.used, hb.noPool, fun hr' hq' => hb.unreached hr' (hext.follow_eq hq')⟩
    rcases mem_cons.mp (h.live hold) with hbu | hmem
    · -- the new table is in use
      obtain ⟨n', hn', hnext⟩ := link_next hu hn
      rw [hbu] at hb
      exact absurd ((follow_snoc (hext.follow_eq hq) hn').trans hnext) (hb.unreached hr)
    · exact hmem
  · intro x hx
    exact mem_cons_of_mem _ hx

/-- The address is not below a table of the heap's own pages. -/
def Away (N : Nat) (v : VAddr) : Prop := ∀ b < N, path v ≠ region b

theorem Away.not_prefix (hv : Away N v) {p : List Nat} (hp : p <+: path v) :
    ∀ b < N, p ≠ region b := by
  rintro b hb rfl
  exact hv b hb (hp.eq_of_length rfl).symm

theorem Away.slotOf_ne (hv : Away N v) (hN : N ≤ 2 ^ 16) {n r' : Nat} (hb : b < N)
    (hn : n < 2) : slotOf r' (heapPage b n) ≠ slotOf r v := by
  intro hs
  obtain ⟨⟨hpath, -⟩, -⟩ := slotOf_eq_iff.mp hs
  rw [path_heapPage (hb.trans_le hN) hn] at hpath
  exact hv b hb hpath.symm

/-- The last table on the way to the address is there. -/
def Covered (w : World) (r : Nat) (v : VAddr) : Prop := (follow w.tables r (path v)).isSome

instance (w : World) (r : Nat) (v : VAddr) : Decidable (Covered w r v) :=
  inferInstanceAs (Decidable (_ = true))

/-- Where pages may be mapped: there is a table already, or the address is away from all blocks
that the heap will have by then. -/
def Mappable (w w' : World) (r : Nat) (v : VAddr) : Prop :=
  Covered w r v ∨ Away w'.heap.map.length v

/-- Where there is a table, nothing is allocated on the way. -/
theorem mapPageTo_covered {paddr attr : Nat} (h : Sound w R S) (hr : R r) (hv : Covered w r v)
    (hm : mapPageTo w r v paddr attr = some w') :
    ∃ t, follow w.tables r (path v) = some t ∧ (pte w r v).p = false ∧ refillPool
      (w.setEntry t (index 0 v) (setAttributes attr ((pte w r v).present paddr))) = some w' := by
  obtain ⟨w2, hraw, hrefill⟩ := of_bind hm
  obtain ⟨t, ht⟩ := isSome_iff_exists.mp hv
  obtain ⟨-, w₁, t', i, e, hwalk, he, hp, rfl⟩ := mapPageToRaw_cases hraw
  have hwalk' : getEntryCreate allocBlock (setAttributes 0x3) 0 3 w r v = some (w, t, index 0 v) :=
    getEntryCreate_follow (j := 3) ht
  cases hwalk.symm.trans hwalk'
  obtain rfl := Option.some.inj ((h.entry_eq hr ht).symm.trans he)
  exact ⟨t, ht, hp, hrefill⟩

/-- A walk that keeps away from the heap's own pages keeps the books. -/
theorem Books.creates (init : Entry → Entry) :
    Creates R S allocBlock init (fun _ p => ∀ b < N, p ≠ region b) (Carries R S N held) := by
  intro w r t i q n w₁ u phys e h hr hq hlen hP hn hi ha
  obtain ⟨hs, hext, hnext, hgrown⟩ := allocBlock_creates init e h hr hq hlen trivial hn hi ha
  refine ⟨hs, hext, hnext, hgrown.steps.length_le, fun hroom hb => ?_⟩
  obtain ⟨-, ht, hbooks⟩ := hb.alloc ha hroom
  have huN : u < N := by
    have hlength := ht.length
    have hroom' : w₁.heap.map.length ≤ N := hroom
    omega
  obtain ⟨n1, hn1, hi1⟩ := ht.next_none h hr hq (hP u huN) hn hi
  exact hbooks.link hr (ht.alloc.ext.follow_eq hq) hn1 hi1 hlen

/-- A page of somebody else's is mapped. -/
theorem Books.mapPageTo {paddr attr : Nat} (h : Books R S N w held) (hr : R r)
    (hv : Away N v) (hm : mapPageTo w r v paddr attr = some w') (hroom : w'.heap.map.length ≤ N) :
    Books R S N w' held := by
  obtain ⟨-, w₁, t, w2, -, -, hcarry, -, -, rfl, hwrite, h2, -, hrefill⟩ :=
    mapPageTo_writes (P := fun _ p => ∀ b < N, p ≠ region b) Carries.refl Carries.trans
      (Books.creates _) h.sound hr (fun hp => hv.not_prefix hp) hm
  have hlen := (refillPool_spec h2 hrefill).grown.steps.length_le
  have hb1 : Books R S N w₁ held := hcarry.books (hlen.trans hroom) h
  refine Books.refillPool (hb1.keep h2 rfl rfl rfl rfl rfl le_rfl (fun b n hb hn => ?_) ?_ hb1.nodup
    ?_ id) hrefill hroom
  · rw [hwrite.view _ hb1.sound.kernel, if_neg (hv.slotOf_ne h.limits.2 hb hn)]
  · exact fun hx => hwrite.fresh (hb1.fresh hx)
  · exact fun hb => hb1.live hb.of_setEntry

theorem Books.withFrames (h : Books R S N w held) {frames : List Bool}
    (hf : w.frames.length ≤ frames.length) : Books R S N { w with frames := frames } held := by
  refine h.keep (h.sound.withFrames frames) rfl rfl rfl rfl rfl hf (fun _ _ _ _ => rfl) ?_ h.nodup
    ?_ id
  · exact fun hx => ⟨(h.fresh hx).noTable, (h.fresh hx).used, (h.fresh hx).noPool⟩
  · exact fun hb => h.live { hb with }

theorem Books.mapPage {attr a : Nat} (h : Books R S N w held) (hr : R r)
    (hv : Away N v) (hm : mapPage w r v attr = some (w', a)) (hroom : w'.heap.map.length ≤ N) :
    Books R S N w' held := by
  rcases mapPage_cases hm with ⟨-, rfl, hto⟩ | ⟨-, frames, f, hfree, -, rfl, hto⟩
  · exact h.mapPageTo hr hv hto hroom
  · exact (h.withFrames (getFreePage_length hfree)).mapPageTo hr hv hto hroom

/-! ## Giving a block back -/

theorem unmapPage_keeps {a : Nat} (hu : unmapPage w r v = some (w', a)) :
    w'.heap = w.heap ∧ w'.frames = w.frames := by
  obtain ⟨page, -, hu⟩ := of_bind hu
  obtain ⟨⟨t, i⟩, -, hu⟩ := of_bind hu
  obtain ⟨e, -, hu⟩ := of_bind hu
  obtain ⟨-, hu⟩ := of_assert hu
  cases hu
  exact ⟨rfl, rfl⟩

theorem unmapAndFree_heap
    (hu : (unmapAndFree w v : Traced Call World).result = some w') : w'.heap = w.heap := by
  unfold unmapAndFree World.setPageFree at hu
  simp only [Traced.result_bind] at hu
  obtain ⟨⟨w₁, a⟩, hunmap, hu⟩ := of_bind hu
  obtain ⟨-, -, hu⟩ := of_bind hu
  obtain ⟨frames, -, hw⟩ := of_bind hu
  cases hw
  exact (unmapPage_keeps hunmap).1

theorem freeBlockPages_heap
    (hu : (freeBlockPages w b : Traced Call World).result = some w') : w'.heap = w.heap := by
  unfold freeBlockPages at hu
  split at hu
  · rw [Traced.result_bind] at hu
    obtain ⟨w₁, hu1, hu⟩ := of_bind hu
    exact (unmapAndFree_heap hu).trans (unmapAndFree_heap hu1)
  · cases hu
    rfl

theorem kfree_heap (hk : (kfree w b : Traced Call World).result = some w') :
    w.heap.map[b]? = some true ∧ w'.heap.map = w.heap.map.set b false ∧
      w'.heap.usedBlockCount = w.heap.usedBlockCount - 1 := by
  unfold kfree at hk
  simp only [Traced.result_bind] at hk
  obtain ⟨hused, hk⟩ := of_assert hk
  obtain ⟨w₁, hpages, hw⟩ := of_bind hk
  cases hw
  have hheap := freeBlockPages_heap hpages
  refine ⟨hused, ?_, ?_⟩
  · rw [World.freed, hheap]
  · rw [World.freed, hheap]

/-- A block in somebody's hand is given back. -/
theorem Books.kfree {x : Nat × Nat} (h : Books R S N w held) (ho : Owned R w) (hx : x ∈ held)
    (hk : (kfree w x.1 : Traced Call World).result = some w') :
    Books R S N w' (held.filter fun y => y.1 ≠ x.1) ∧ Owned R w' := by
  have hlim := h.limits
  have hu := h.fresh hx
  obtain ⟨-, hmap, hcount⟩ := kfree_heap hk
  obtain ⟨hs, ho', htorn⟩ :=
    (kfree_spec h.sound ho (hu.unreached h.sound) hu.noPool
      fun hfalse : False => hfalse.elim).post hk
  have hkernel := htorn.kernel
  -- the pages of the other blocks, and those of a static block, are as they were
  have hpte : ∀ {b n}, b < 2 ^ 16 → n < 2 → b ≠ x.1 ∨ b < 16 →
      pte w' w'.kernel.root (heapPage b n) = pte w w.kernel.root (heapPage b n) := by
    intro b n hb hn hne
    rw [hkernel]
    rcases htorn.view (heapPage b n) h.sound.kernel with hv | ⟨-, y, ⟨c, m, rfl, hc, hm, rfl⟩, hs⟩
    · exact hv
    · obtain ⟨hbc, -⟩ := slotOf_heapPage hb (h.lt hu.used) hn hm hs
      omega
  have hne : ∀ {y}, y ∈ held.filter (fun y => y.1 ≠ x.1) → y ∈ held ∧ y.1 ≠ x.1 := by
    intro y hy
    obtain ⟨hy, hyx⟩ := List.mem_filter.mp hy
    exact ⟨hy, of_decide_eq_true hyx⟩
  have hused : ∀ {b : Nat}, w'.heap.map[b]? = some true ↔ w.heap.map[b]? = some true ∧ b ≠ x.1 :=
    fun {b} => htorn.map b
  refine ⟨⟨hs, htorn.allocating.trans h.idle, hlim, htorn.mapLength ▸ h.room, ?_, ?_, ?_, ?_, ?_, ?_,
    ?_, ?_⟩, ho'⟩
  · exact fun hy => htorn.fresh (h.fresh (hne hy).1) (hne hy).2
  · exact h.nodup.sublist (List.filter_sublist.map _)
  · intro b hb
    obtain ⟨hb0, hbx⟩ := hused.mp hb.used
    have hold : Stray R w b := ⟨hb0, htorn.pool ▸ hb.noPool,
      fun hr hq => hb.unreached hr ((htorn.follow_eq hr).trans hq)⟩
    obtain ⟨y, hy, rfl⟩ := mem_map.mp (h.live hold)
    exact mem_map.mpr ⟨y, List.mem_filter.mpr ⟨hy, decide_eq_true hbx⟩, rfl⟩
  · rw [hcount, hmap, count_clear hu.used, h.count]
  · intro b n hb hn hb'
    obtain ⟨hb0, hbx⟩ := hused.mp hb'
    rw [hpte (h.lt hb0) hn (.inl hbx)]
    exact h.mapped hb hn hb0
  · intro b n hb hbN hn hfree
    by_cases hbx : b = x.1
    · exact htorn.unmapped ⟨b, n, hbx, hb, hn, rfl⟩
    · rw [hpte (by omega) hn (.inl hbx)]
      exact h.vacant hb hbN hn fun hc => hfree (hused.mpr ⟨hc, hbx⟩)
  · intro b hb
    rw [htorn.start]
    exact (h.static hb).keep (hpte (by omega) (by omega) (.inr hb)) htorn.framesLength.ge
  · intro y hy
    rw [htorn.pool] at hy
    have hy' : y ∈ held ++ w.heap.pool ∧ w.heap.map[y.1]? = some true ∧ y.1 ≠ x.1 := by
      rcases mem_append.mp hy with hy | hy
      · exact ⟨mem_append_left _ (hne hy).1, (h.fresh (hne hy).1).used, (hne hy).2⟩
      · exact ⟨mem_append_right _ hy, (h.sound.poolBlock hy).1, hu.noPool y hy⟩
    obtain ⟨hmem, hused, hyx⟩ := hy'
    exact (h.phys hmem).keep (hpte (h.lt hused) (by omega) (.inl hyx)) htorn.framesLength.ge

end Flix.Paging

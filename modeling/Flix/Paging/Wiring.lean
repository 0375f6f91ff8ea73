import Flix.Paging.PageHeap

/-!
# Two ways to the same table

A table names the tables below it twice: by a pointer, which the kernel follows, and by
the number of a frame, which the processor follows. The frame is the one that the first
page of the table is on, and which that is stands in the kernel directory, since tables
live in blocks of the page heap.

The two are written by different statements, and the frame is what the allocator says it
is. So what has to be carried along is where the blocks are: those that are tables, those
in the pool, which will be, and the static ones. `Wired` says that about all of them. It
is kept by everything that leaves their pages alone.
-/

namespace Flix.Paging

open Function Radix

variable {w w₁ w' : World} {R : Nat → Prop} {S N : Nat} {B B' C : Nat → Nat → Prop}

/-! ## Names -/

/-- What an entry keeps of a physical address. -/
def baseOf (phys : Nat) : Nat := phys / PAGE_SIZE % 2 ^ 40

/-- The kernel directory has the first page of block `u` on frame `f`. -/
def PageAt (w : World) (u f : Nat) : Prop :=
  (pte w w.kernel.root (heapPage u 0)).p = true ∧ (pte w w.kernel.root (heapPage u 0)).base = f

/-- It does so as long as that page is mapped as before. -/
theorem PageAt.of_pte {u f : Nat} (hat : PageAt w u f) (hk : w'.kernel = w.kernel)
    (hpte : pte w' w.kernel.root (heapPage u 0) = pte w w.kernel.root (heapPage u 0)) :
    PageAt w' u f := by
  rw [PageAt, hk, hpte]
  exact hat

/-- Beside each pointer to a table there is an entry that is present, with the frame of the table.
Where tables are is `B`. -/
structure Names (B : Nat → Nat → Prop) (R : Nat → Prop) (w : World) : Prop where
  entry : ∀ {r p t n i u}, R r → follow w.tables r p = some t → w.tables t = some n →
    n.next i = some u → (n.entries i).p = true ∧ B u (n.entries i).base

theorem Names.mono (h : Names B R w)
    (hB : ∀ {r p u f}, R r → follow w.tables r p = some u → B u f → B' u f) : Names B' R w := by
  refine ⟨fun {r p t n i u} hr hp hn hu => ?_⟩
  obtain ⟨hpresent, hbase⟩ := h.entry hr hp hn hu
  exact ⟨hpresent, hB hr ((follow_snoc hp hn).trans hu) hbase⟩

theorem Names.of_tables (h : Names B R w) (ht : w'.tables = w.tables) : Names B R w' := by
  refine ⟨fun {r p t n i u} hr hp hn hu => ?_⟩
  rw [ht] at hp hn
  exact h.entry hr hp hn hu

variable {r t u phys n paddr attr a : Nat} {v : VAddr}

theorem Names.setEntry (h : Names B R w) (hs : Sound w R S) (hr : R r)
    (ht : follow w.tables r (path v) = some t) (i : Nat) (e : Entry) :
    Names B R (w.setEntry t i e) := by
  refine ⟨fun {r' p t' n i' u} hr' hp hn hu => ?_⟩
  have hp : follow w.tables r' p = some t' := follow_setEntry.symm.trans hp
  have hlast : t' ≠ t := by
    rintro rfl
    obtain ⟨n', hn'⟩ := isSome_iff_exists.mp (hs.live hr ht)
    rw [setEntry_tables, setEntry_self hn'] at hn
    cases hn
    have hdepth := hs.depth hr ((follow_snoc ht hn').trans hu)
    simp [path] at hdepth
  rw [setEntry_tables, setEntry_of_ne hlast] at hn
  exact h.entry hr' hp hn hu

/-- A new table is named where it is linked. -/
theorem Names.link (h : Names B R w) (hs : Sound w R S) {i : Nat} {e : Entry} {n : Node Entry}
    (hu : Fresh w u) (hn : w.tables t = some n) (he : e.p = true) (hB : B u e.base) :
    Names B R (w.link t i u e) := by
  have ht : (w.tables t).isSome := by rw [hn]; rfl
  have hut := (hu.ne ht).symm
  refine ⟨fun {r p t' n' i' x} hr hp hn' hx => ?_⟩
  rcases follow_link_cases hs hu ht hr hp with ⟨hold, hne⟩ | ⟨rfl, -⟩
  · by_cases htt : t' = t
    · subst htt
      rw [link_at hut hn] at hn'
      cases hn'
      by_cases hii : i' = i
      · subst hii
        obtain rfl : u = x := by simpa using hx
        simpa using ⟨he, hB⟩
      · have hx' : n.next i' = some x := by simpa [update_of_ne hii] using hx
        simpa [update_of_ne hii] using h.entry hr hold hn hx'
    · rw [link_of_ne htt hne] at hn'
      exact h.entry hr hold hn' hx
  · -- the new table is blank
    rw [link_new hut] at hn'
    cases hn'
    cases hx

/-! ## Inside an allocation -/

/-- The same, and of the blocks in the pool it is known where they are. -/
structure Known (B : Nat → Nat → Prop) (R : Nat → Prop) (w : World) : Prop where
  names : Names B R w
  pool : ∀ {x}, x ∈ w.heap.pool → B x.1 (baseOf x.2)

theorem present_base (attr phys : Nat) (e : Entry) (h : attr.testBit 3 = false) :
    (setAttributes attr (e.present phys)).p = true ∧
      (setAttributes attr (e.present phys)).base = baseOf phys := by
  refine ⟨?_, rfl⟩
  simp [setAttributes, Entry.present, h]

theorem takePool_known :
    Creates R S takePool (setAttributes 0x3) (fun _ _ => True)
      (fun w w' => Known B R w → Known B R w') := by
  intro w r t i q n w₁ u phys e h hr hq hlen hP hn hi ha
  obtain ⟨hs, hext, hnext, -⟩ := takePool_creates (setAttributes 0x3) e h hr hq hlen hP hn hi ha
  obtain ⟨h1, hu, -⟩ := takePool_spec h ha
  obtain ⟨pool, hpool, rfl⟩ := takePool_cases ha
  refine ⟨hs, hext, hnext, fun hb => ⟨?_, fun hx => hb.pool ?_⟩⟩
  · obtain ⟨hp, hbase⟩ := present_base 0x3 phys e rfl
    have hnames : Names B R { w with heap := { w.heap with pool := pool } } :=
      hb.names.of_tables rfl
    refine hnames.link h1 hu hn hp ?_
    refine hb.pool (x := (u, phys)) ?_
    rw [hpool]
    exact mem_cons_self
  · rw [hpool]
    exact mem_cons_of_mem _ hx

theorem mapHeapPage_known (h : Sound w R S) (hb : Known B R w) {y : VAddr}
    (hm : mapHeapPage w y = some (w', phys)) : Known B R w' := by
  obtain ⟨frames, f, -, -, -, hraw⟩ := mapHeapPage_cases hm
  have h0 : Sound { w with frames := frames } R S := h.withFrames frames
  obtain ⟨-, w₁, t, h1, -, hQ, hft, -, rfl⟩ :=
    mapPageToRaw_spec (P := fun _ _ => True) (Q := fun w w' => Known B R w → Known B R w')
      (fun _ => id) (fun hab hbc ha => hbc (hab ha)) takePool_known h0 h0.kernel
      (fun _ => trivial) hraw
  have hb1 : Known B R w₁ := hQ ⟨hb.names.of_tables rfl, hb.pool⟩
  exact ⟨hb1.names.setEntry h1 h0.kernel hft _ _, hb1.pool⟩

/-! ## Where the blocks are -/

/-- Blocks of which the first page matters. -/
inductive InUse (R : Nat → Prop) (w : World) (u : Nat) : Prop where
  | table {r : Nat} {p : List Nat} (hr : R r) (hp : follow w.tables r p = some u)
  | pool {x : Nat × Nat} (hx : x ∈ w.heap.pool) (hu : x.1 = u)
  | static (hu : u < 16)

theorem InUse.mono {u : Nat} (hu : InUse R w' u)
    (hf : ∀ {r p}, R r → follow w'.tables r p = some u → follow w.tables r p = some u)
    (hpool : ∀ {x}, x ∈ w'.heap.pool → x ∈ w.heap.pool) : InUse R w u := by
  cases hu with
  | table hr hp => exact .table hr (hf hr hp)
  | pool hx hxu => exact .pool (hpool hx) hxu
  | static hlt => exact .static hlt

/-- The entries lead the processor where the pointers lead the kernel. For each directory, `C`
is the frame that `CR3` gets. -/
structure Wired (R : Nat → Prop) (C : Nat → Nat → Prop) (S : Nat) (w : World) : Prop where
  sound : Sound w R S
  room : w.heap.map.length ≤ 2 ^ 16
  cr3 : ∀ {r f}, C r f → R r ∧ PageAt w r f
  roots : ∀ {r}, R r → ∃ f, C r f
  names : Names (PageAt w) R w
  pool : ∀ {x}, x ∈ w.heap.pool → PageAt w x.1 (baseOf x.2)
  static : ∀ {b}, b < 16 → PageAt w b (baseOf (w.pageHeapStart + b * PAGE_SIZE * 2))

theorem Wired.known (h : Wired R C S w) : Known (PageAt w) R w := ⟨h.names, h.pool⟩

theorem InUse.used (hu : InUse R w u) (h : Sound w R S) : u < 16 ∨ w.heap.map[u]? = some true := by
  cases hu with
  | table hr hp => exact .inr (h.block (h.live hr hp))
  | pool hx hxu => exact .inr (hxu ▸ (h.poolBlock hx).1)
  | static hu => exact .inl hu

theorem Wired.lt (h : Wired R C S w) (hu : InUse R w u) : u < 2 ^ 16 := by
  have hroom := h.room
  rcases hu.used h.sound with hlt | hused
  · omega
  · exact (getElem?_lt hused).trans_le hroom

theorem Wired.pageAt (h : Wired R C S w) (hu : InUse R w u) : ∃ f, PageAt w u f := by
  cases hu with
  | table hr hp =>
    rename_i r p
    rcases List.eq_nil_or_concat p with rfl | ⟨q, i, rfl⟩
    · cases hp
      obtain ⟨f, hf⟩ := h.roots hr
      exact ⟨f, (h.cr3 hf).2⟩
    · -- the table has been come to by a pointer
      rw [List.concat_eq_append, follow_append] at hp
      obtain ⟨t, ht, hp⟩ := of_bind hp
      obtain ⟨n, hn⟩ := isSome_iff_exists.mp (h.sound.live hr ht)
      rw [follow_cons hn] at hp
      obtain ⟨x, hx, hp⟩ := of_bind hp
      cases hp
      exact ⟨_, (h.names.entry hr ht hn hx).2⟩
  | pool hx hxu => exact ⟨_, hxu ▸ h.pool hx⟩
  | static hlt => exact ⟨_, h.static hlt⟩

theorem Wired.absent (h : Wired R C S w) (hr : R r)
    (hv : (pte w r v).p = false) (hu : InUse R w u) :
    slotOf w.kernel.root (heapPage u 0) ≠ slotOf r v := by
  intro hs
  obtain ⟨f, hat, -⟩ := h.pageAt hu
  rw [h.sound.pte_of_slot h.sound.kernel hr hs, hv] at hat
  cases hat

/-- A fresh block is not among them, unless it is static. -/
theorem Fresh.not_inUse (hu : Fresh w u) (h : Sound w R S) (hle : 16 ≤ u) : ¬ InUse R w u := by
  intro hc
  cases hc with
  | table hr hp => exact hu.unreached h hr hp
  | pool hx hxu => exact hu.noPool _ hx hxu
  | static hlt => omega

/-- What leaves the first pages of these blocks alone keeps the tables wired. -/
theorem Wired.keep (h : Wired R C S w) (hs : Sound w' R S) (hroom : w'.heap.map.length ≤ 2 ^ 16)
    (hknown : Known (PageAt w) R w') (hstart : w'.pageHeapStart = w.pageHeapStart)
    (hpage : ∀ {u f}, InUse R w' u → PageAt w u f → PageAt w' u f) : Wired R C S w' := by
  refine ⟨hs, hroom, fun hc => ?_, h.roots, hknown.names.mono fun hr hp => hpage (.table hr hp),
    fun hx => hpage (.pool hx rfl) (hknown.pool hx), fun hb => ?_⟩
  · obtain ⟨hr, hat⟩ := h.cr3 hc
    exact ⟨hr, hpage (.table (p := []) hr rfl) hat⟩
  · rw [hstart]
    exact hpage (.static hb) (h.static hb)

/-- The tables are as they were, and no block has come to the pool. -/
theorem Wired.of_tables (h : Wired R C S w) (hs : Sound w' R S)
    (hroom : w'.heap.map.length ≤ 2 ^ 16) (ht : w'.tables = w.tables) (hk : w'.kernel = w.kernel)
    (hpool : w'.heap.pool = w.heap.pool) (hstart : w'.pageHeapStart = w.pageHeapStart) :
    Wired R C S w' := by
  refine h.keep hs hroom ⟨h.names.of_tables ht, fun hx => h.pool (hpool ▸ hx)⟩ hstart ?_
  exact fun _ hat => hat.of_pte hk (by rw [pte, ht, pte])

theorem Wired.withFrames (h : Wired R C S w) (frames : List Bool) :
    Wired R C S { w with frames := frames } :=
  h.of_tables (h.sound.withFrames frames) h.room rfl rfl rfl rfl

/-- A page elsewhere may be written. -/
theorem Wired.setEntry (h : Wired R C S w) (hr : R r)
    (ht : follow w.tables r (path v) = some t) (e : Entry)
    (hv : ∀ {u}, InUse R w u → slotOf w.kernel.root (heapPage u 0) ≠ slotOf r v) :
    Wired R C S (w.setEntry t (index 0 v) e) := by
  refine h.keep (h.sound.setEntry hr ht _ _) h.room
    ⟨h.names.setEntry h.sound hr ht _ _, h.pool⟩ rfl ?_
  intro u f hu hat
  have hu0 : InUse R w u := hu.mono (fun _ hp => follow_setEntry.symm.trans hp) id
  refine hat.of_pte rfl ?_
  rw [h.sound.pte_setEntry hr h.sound.kernel ht, if_neg (hv hu0)]

/-! ## Allocation -/

theorem Wired.mapHeapPage {b : Nat} (h : Wired R C S w) (hb : Fresh w b) (hle : 16 ≤ b)
    (hn : n < 2) (hm : mapHeapPage w (heapPage b n) = some (w', phys)) :
    Wired R C S w' ∧ Fresh w' b ∧ (n = 0 → PageAt w' b (baseOf phys)) ∧
      ∀ {u f}, u < 2 ^ 16 → ¬ (u = b ∧ n = 0) → PageAt w u f → PageAt w' u f := by
  have hb16 : b < 2 ^ 16 := (getElem?_lt hb.used).trans_le h.room
  obtain ⟨-, f, rfl, -, hs, hext, hfresh, hmap, -, -, hkeep, -⟩ := mapHeapPage_spec h.sound hm
  have hkernel := hext.kernel
  have hother : ∀ {u g}, u < 2 ^ 16 → ¬ (u = b ∧ n = 0) → PageAt w u g → PageAt w' u g := by
    intro u g hu hne hat
    have hslot : slotOf w.kernel.root (heapPage u 0) ≠ slotOf w.kernel.root (heapPage b n) := by
      intro hc
      obtain ⟨hub, h0⟩ := slotOf_heapPage hu hb16 (by omega) hn hc
      exact hne ⟨hub, h0.symm⟩
    refine hat.of_pte hkernel ?_
    rw [hfresh.view _ h.sound.kernel, if_neg hslot]
  have hknown := mapHeapPage_known h.sound h.known hm
  refine ⟨h.keep hs (by rw [hmap]; exact h.room) hknown hext.start ?_, hkeep hb, ?_, hother⟩
  · intro u g hu hat
    have hub : u ≠ b := by
      rintro rfl
      exact (hkeep hb).not_inUse hs hle hu
    refine hother ?_ (fun hc => hub hc.1) hat
    rcases hu.used hs with hlt | hused
    · omega
    · rw [hmap] at hused
      exact (getElem?_lt hused).trans_le h.room
  · rintro rfl
    rw [PageAt, hkernel, hfresh.view _ h.sound.kernel, if_pos rfl]
    exact ⟨rfl, rfl⟩

theorem Wired.allocPage {k u phys : Nat} (h : Wired R C S w) (hk : k < 2 ^ 16)
    (ha : allocPage w k = some (w₁, u, phys)) : Wired R C S w₁ ∧ PageAt w₁ u (baseOf phys) := by
  obtain ⟨hfree, rfl, ha⟩ := allocPage_cases ha
  obtain ⟨h0, hfresh, -, -⟩ := h.sound.reserve hfree
  have hwired0 : Wired R C S (w.reserved u) :=
    h.of_tables h0 (List.length_set.trans_le h.room) rfl rfl rfl rfl
  -- the flag and the count are of no concern
  have hclose : ∀ {x : World}, Wired R C S x → Wired R C S x.allocated := fun hx =>
    hx.of_tables (hx.sound.of_tables rfl rfl rfl fun _ hb => hb) hx.room rfl rfl rfl rfl
  rcases ha with ⟨hdyn, w2, w3, phys3, hmap2, hmap3, rfl⟩ | ⟨hstatic, rfl, rfl⟩
  · obtain ⟨hwired2, hfresh2, hat2, -⟩ := hwired0.mapHeapPage hfresh hdyn (by omega) hmap2
    obtain ⟨hwired3, -, -, hother⟩ := hwired2.mapHeapPage hfresh2 hdyn (by omega) hmap3
    exact ⟨hclose hwired3, hother hk (fun hc => Nat.one_ne_zero hc.2) (hat2 rfl)⟩
  · exact ⟨hclose hwired0, hwired0.static hstatic⟩

/-- A block comes with the address it is at. -/
theorem Wired.allocBlock (h : Wired R C S w) (hidle : w.heap.allocating = false)
    (ha : allocBlock w = some (w₁, u, phys)) : Wired R C S w₁ ∧ PageAt w₁ u (baseOf phys) := by
  have hnext := allocBlock_room hidle h.room ha
  obtain ⟨-, -, hlen, hmap⟩ := nextBlock_spec w
  rw [allocBlock_eq hidle] at ha
  have hroom := h.room
  have hroomy : Wired R C S { w with heap := { w.heap with map := w.roomy } } := by
    refine h.of_tables ?_ ?_ rfl rfl rfl rfl
    · exact h.sound.of_tables rfl rfl rfl fun x hx => (hmap x).mpr hx
    · show w.roomy.length ≤ 2 ^ 16
      omega
  exact hroomy.allocPage hnext ha

/-- The block becomes a table, in a slot that was empty. -/
theorem Wired.link {i : Nat} {q : List Nat} {n : Node Entry} {e : Entry} (h : Wired R C S w)
    (hu : Fresh w u) (hat : PageAt w u e.base) (he : e.p = true) (hr : R r)
    (hq : follow w.tables r q = some t) (hn : w.tables t = some n) (hi : n.next i = none)
    (hlen : q.length < 3) : Wired R C S (w.link t i u e) := by
  have hs := (Extends.refl w).create_sound (e := e) h.sound hu hr hq hn hi h.sound hlen
  refine h.keep hs h.room ⟨h.names.link h.sound hu hn he hat, h.pool⟩ rfl ?_
  intro x f _ hx
  exact hx.of_pte rfl (pte_link h.sound hu hr hq hn hi hlen h.sound.kernel _)

/-- What keeps the tables wired, as long as there are no more than `N` blocks. -/
structure Wires (R : Nat → Prop) (C : Nat → Nat → Prop) (S N : Nat) (w w' : World) : Prop where
  length_le : w.heap.map.length ≤ w'.heap.map.length
  allocating : w'.heap.allocating = w.heap.allocating
  wired : w.heap.allocating = false → w'.heap.map.length ≤ N → Wired R C S w → Wired R C S w'

theorem Wires.refl (w : World) : Wires R C S N w w := ⟨le_rfl, rfl, fun _ _ h => h⟩

theorem Wires.trans {a b c : World} (h : Wires R C S N a b) (h' : Wires R C S N b c) :
    Wires R C S N a c :=
  ⟨h.length_le.trans h'.length_le, h'.allocating.trans h.allocating, fun hidle hc hw =>
    h'.wired (h.allocating.trans hidle) hc (h.wired hidle (h'.length_le.trans hc) hw)⟩

/-- A walk that keeps away from the heap's own pages. -/
theorem Wires.creates (attr : Nat) (hattr : attr.testBit 3 = false) :
    Creates R S Paging.allocBlock (setAttributes attr) (fun _ p => ∀ b < N, p ≠ region b)
      (Wires R C S N) := by
  intro w r t i q n w₁ u phys e h hr hq hlen hP hn hi ha
  obtain ⟨hs, hext, hnext, hgrown⟩ :=
    allocBlock_creates (setAttributes attr) e h hr hq hlen trivial hn hi ha
  refine ⟨hs, hext, hnext, hgrown.steps.length_le, hgrown.allocating, fun hidle hroom hw => ?_⟩
  obtain ⟨hw1, hat⟩ := hw.allocBlock hidle ha
  obtain ⟨-, ht⟩ := allocBlock_took h hidle (allocBlock_room hidle hw.room ha) ha
  have huN : u < N := by
    have hlength := ht.length
    have hroom' : w₁.heap.map.length ≤ N := hroom
    omega
  obtain ⟨n1, hn1, hi1⟩ := ht.next_none h hr hq (hP u huN) hn hi
  obtain ⟨hp, hbase⟩ := present_base attr phys e hattr
  refine hw1.link ht.alloc.block ?_ hp hr (ht.alloc.ext.follow_eq hq) hn1 hi1 hlen
  exact hat

/-! ## The pool -/

theorem Wired.push (h : Wired R C S w) (hu : Fresh w u) (hat : PageAt w u (baseOf phys)) :
    Wired R C S { w with heap := { w.heap with pool := (u, phys) :: w.heap.pool } } := by
  refine h.keep (h.sound.push hu) h.room ⟨h.names.of_tables rfl, fun hx => ?_⟩ rfl fun _ hx => hx
  rcases mem_cons.mp hx with rfl | hx
  · exact hat
  · exact h.pool hx

theorem Wired.refillPool (h : Wired R C S w) (hidle : w.heap.allocating = false)
    (hr : refillPool w = some w') : Wired R C S w' := by
  have hkeep : Wired R C S w' ∧ w'.heap.allocating = false := by
    refine refillPool_induct (P := fun x => Wired R C S x ∧ x.heap.allocating = false) ⟨h, hidle⟩
      (fun {x w₁ u phys} hx ha => ?_) hr
    obtain ⟨hw, hidle⟩ := hx
    have halloc := allocBlock_spec hw.sound ha
    obtain ⟨hw1, hat⟩ := hw.allocBlock hidle ha
    exact ⟨hw1.push halloc.block hat, halloc.grown.allocating.trans hidle⟩
  exact hkeep.1

/-! ## The operations on a directory -/

theorem add_page (v : VAddr) (i : Nat) :
    v + 0x1000 + BitVec.ofNat 64 (i * 0x1000) = v + BitVec.ofNat 64 ((i + 1) * 0x1000) := by
  have hone : (0x1000 : VAddr).toNat = 0x1000 := rfl
  apply BitVec.eq_of_toNat_eq
  simp only [BitVec.toNat_add, BitVec.toNat_ofNat]
  omega

/-- An address that is away from the blocks there are is on no page of one. -/
theorem Wired.away (h : Wired R C S w) (hv : Away w.heap.map.length v)
    (hu : InUse R w u) : slotOf w.kernel.root (heapPage u 0) ≠ slotOf r v := by
  rcases hu.used h.sound with hlt | hused
  · -- the first blocks are in one region, and the root of the kernel directory is in it or not
    intro hs
    obtain ⟨⟨hpath, -⟩, -⟩ := slotOf_eq_iff.mp hs
    have hpos : 0 < w.heap.map.length :=
      (Nat.zero_le _).trans_lt (getElem?_lt (h.sound.block (h.sound.rootLive h.sound.kernel)))
    rw [path_heapPage (by omega) (by omega)] at hpath
    refine hv 0 hpos ?_
    rw [← hpath, region]
    congr 3
    omega
  · exact hv.slotOf_ne h.room (getElem?_lt hused) (by omega)

section Mapping

variable (h : Wired R C S w) (hidle : w.heap.allocating = false) (hr : R r)
include h hidle hr

/-- A page is mapped where there is a table for it. Nothing is allocated on the way. -/
theorem Wired.mapCovered (hv : Covered w r v)
    (hm : mapPageTo w r v paddr attr = some w') : Wired R C S w' ∧ w'.heap.allocating = false := by
  obtain ⟨t, ht, hp, hrefill⟩ := mapPageTo_covered h.sound hr hv hm
  have hw2 := h.setEntry hr ht (setAttributes attr ((pte w r v).present paddr))
    fun hu => h.absent hr hp hu
  have hgrown := (refillPool_spec hw2.sound hrefill).grown
  exact ⟨hw2.refillPool hidle hrefill, hgrown.allocating.trans hidle⟩

/-- A page is mapped away from the blocks. -/
theorem Wired.mapPageTo (hm : mapPageTo w r v paddr attr = some w')
    (hv : Away w'.heap.map.length v) : Wired R C S w' ∧ w'.heap.allocating = false := by
  obtain ⟨-, w₁, t, w2, -, -, hwires, hf, -, rfl, -, h2, -, hrefill⟩ :=
    mapPageTo_writes (P := fun _ p => ∀ b < w'.heap.map.length, p ≠ region b) Wires.refl
      Wires.trans (Wires.creates (C := C) 0x3 rfl) h.sound hr (fun hp => hv.not_prefix hp) hm
  have hgrown := (refillPool_spec h2 hrefill).grown
  have hlen : w₁.heap.map.length ≤ w'.heap.map.length := hgrown.steps.length_le
  have hidle1 : w₁.heap.allocating = false := hwires.allocating.trans hidle
  have hw1 := hwires.wired hidle hlen h
  refine ⟨(hw1.setEntry hr hf _ fun hu => hw1.away ?_ hu).refillPool hidle1 hrefill,
    hgrown.allocating.trans hidle1⟩
  exact fun b hb => hv b (hb.trans_le hlen)

theorem Wired.mapAt (hm : Paging.mapPageTo w r v paddr attr = some w')
    (hv : Mappable w w' r v) : Wired R C S w' ∧ w'.heap.allocating = false := by
  rcases hv with hv | hv
  · exact h.mapCovered hidle hr hv hm
  · exact h.mapPageTo hidle hr hm hv

theorem Wired.mapPage (hm : mapPage w r v attr = some (w', a))
    (hv : Mappable w w' r v) : Wired R C S w' ∧ w'.heap.allocating = false := by
  rcases mapPage_cases hm with ⟨-, -, hto⟩ | ⟨-, frames, f, -, -, -, hto⟩
  · exact h.mapAt hidle hr hto hv
  · exact (h.withFrames frames).mapAt hidle hr hto hv

/-- Several pages, each of them where there is a table, or away from the blocks. -/
theorem Wired.mapRange (hm : mapRange w r v attr n = some w')
    (hv : ∀ i < n, Mappable w w' r (v + BitVec.ofNat 64 (i * 0x1000))) :
    Wired R C S w' ∧ w'.heap.allocating = false ∧ w'.kernel = w.kernel := by
  induction n generalizing w v with
  | zero =>
    cases hm
    exact ⟨h, hidle, rfl⟩
  | succ n ih =>
    obtain ⟨⟨w₁, a⟩, hpage, hm⟩ := of_bind hm
    have hsteady := mapPage_steady h.sound hr hpage
    have hlen := (mapRange_steady hsteady.sound hr hm).length_le
    have hfirst : Mappable w w₁ r v := by
      have hclear := hv 0 (by omega)
      rw [show v + BitVec.ofNat 64 (0 * 0x1000) = v by simp] at hclear
      rcases hclear with hcov | haway
      · exact .inl hcov
      · exact .inr fun b hb => haway b (hb.trans_le hlen)
    obtain ⟨h1, hidle1⟩ := h.mapPage hidle hr hpage hfirst
    have hrest : ∀ i < n, Mappable w₁ w' r (v + 0x1000 + BitVec.ofNat 64 (i * 0x1000)) := by
      intro i hi
      rw [add_page]
      rcases hv (i + 1) (by omega) with hcov | haway
      · -- tables stay
        obtain ⟨t, ht⟩ := isSome_iff_exists.mp hcov
        refine .inl ?_
        rw [Covered, hsteady.ext.follow_eq ht]
        rfl
      · exact .inr haway
    obtain ⟨h', hidle', hkernel⟩ := ih h1 hidle1 hm hrest
    exact ⟨h', hidle', hkernel.trans hsteady.ext.kernel⟩

end Mapping

/-- A page is cleared that none of these blocks has its first page on. -/
theorem Wired.unmap (h : Wired R C S w) (hr : R r)
    (hv : ∀ {u}, InUse R w u → slotOf w.kernel.root (heapPage u 0) ≠ slotOf r v)
    (hu : unmapPage w r v = some (w', a)) :
    Wired R C S w' ∧ ∃ t e, w' = w.setEntry t (index 0 v) e := by
  obtain ⟨t, ht, -, -, rfl⟩ := unmapPage_eq h.sound hr hu
  exact ⟨h.setEntry hr ht _ hv, t, _, rfl⟩

theorem Wired.handleFault {b : Bool} (h : Wired R C S w) (hr : R r)
    (hf : handleFault w r v = some (w', b)) : Wired R C S w' := by
  rcases handleFault_eq h.sound hr hf with ⟨-, rfl, -⟩ | ⟨-, hd, t, frames, f, ht, -, rfl⟩
  · exact h
  · have hw := h.withFrames frames
    exact hw.setEntry hr ht _ fun hu => hw.absent hr hd.1 hu

end Flix.Paging

import Flix.Paging.Walk
import Mathlib.Logic.Relation

/-!
# The page heap beneath the directories

To map a page is to walk, and a walk allocates. This module says what that does
besides: blocks of the page heap are mapped in the kernel directory, each page of
them on a fresh frame, and where such a mapping was made below a slot that the
outer walk then overwrites, it is lost again. `HeapStep` is one such effect on the
entries, and every operation is its own write between runs of them.

Nested in an allocation, tables come from the pool and there is no further effect
(`Nested`); from outside the whole allocator runs (`Grown`).
-/

namespace Flix.Paging

open Function Radix

variable {w w₁ w' : World} {R : Nat → Prop} {S : Nat}

/-! ## Frames -/

def Used (frames : List Bool) (f : Nat) : Prop := frames[f]? = some true

instance (frames : List Bool) (f : Nat) : Decidable (Used frames f) :=
  inferInstanceAs (Decidable (_ = _))

variable {frames frames' : List Bool} {f r u phys : Nat} {v y : VAddr}

theorem used_set_true (hf : f < frames.length) (j : Nat) :
    Used (frames.set f true) j ↔ Used frames j ∨ j = f := by
  by_cases hj : j = f
  · subst hj
    simp [Used, hf]
  · simp [Used, hj, List.getElem?_set_ne (Ne.symm hj)]

theorem used_set_false (frames : List Bool) (f j : Nat) :
    Used (frames.set f false) j ↔ Used frames j ∧ j ≠ f := by
  by_cases hj : j = f
  · simp [Used, hj, List.getElem?_set]
  · simp [Used, hj, List.getElem?_set_ne (Ne.symm hj)]

theorem used_append_false {n : Nat} (j : Nat) :
    Used (frames ++ List.replicate n false) j ↔ Used frames j := by
  unfold Used
  by_cases hj : j < frames.length
  · rw [List.getElem?_append_left hj]
  · rw [List.getElem?_append_right (by omega), List.getElem?_eq_none (by omega : frames.length ≤ j)]
    simp [List.getElem?_replicate]

theorem setPageUsed_spec (h : setPageUsed frames f = some frames') :
    ¬ Used frames f ∧ ∀ j, Used frames' j ↔ Used frames j ∨ j = f := by
  obtain ⟨hlt, h⟩ := of_assert h
  obtain ⟨hfree, h⟩ := of_assert h
  cases h
  -- the vector may have grown first
  have hgrow : ∀ j, Used (if frames.length ≤ f then
      frames ++ List.replicate ((f + 1 + 15) / 16 * 16 - frames.length) false else frames) j
      ↔ Used frames j := by
    intro j
    split
    · exact used_append_false j
    · rfl
  refine ⟨?_, ?_⟩
  · rw [← hgrow f, Used, hfree]
    simp
  · intro j
    rw [used_set_true hlt, hgrow]

/-- A free page was not in use, and is in use from now on. -/
theorem getFreePage_spec (h : getFreePage frames = some (frames', f)) :
    ¬ Used frames f ∧ ∀ j, Used frames' j ↔ Used frames j ∨ j = f := by
  unfold getFreePage at h
  cases hi : frames.findIdx? (fun used => !used) with
  | some i =>
    rw [hi] at h
    obtain ⟨fr, hset, heq⟩ := map_eq_some_iff.mp h
    cases heq
    exact setPageUsed_spec hset
  | none =>
    rw [hi] at h
    obtain ⟨fr, hset, heq⟩ := map_eq_some_iff.mp h
    cases heq
    have hspec := setPageUsed_spec hset
    simpa only [used_append_false] using hspec

theorem setPageFree_spec (h : setPageFree frames f = some frames') :
    Used frames f ∧ ∀ j, Used frames' j ↔ Used frames j ∧ j ≠ f := by
  obtain ⟨hlt, h⟩ := of_assert h
  obtain ⟨hused, h⟩ := of_assert h
  cases h
  exact ⟨hused, used_set_false frames f⟩

/-! ## Walks that allocate -/

/-- What `_mapPageTo` takes. -/
structure Accepts (v : VAddr) (attr : Nat) : Prop where
  user : ¬ (v.toNat < 0xffffffff00000000 ∧ attr.testBit 1 = false)
  kernel : ¬ (v.toNat > 0xffffffffc0000000 ∧ attr.testBit 1 = true)
  known : attr < 16

/-- `_mapPageTo` is a walk, and then a write where nothing was present. -/
theorem mapPageToRaw_cases {alloc : World → Option (World × Nat × Nat)} {paddr attr : Nat}
    (hmap : mapPageToRaw alloc w r v paddr attr = some w') :
    Accepts v attr ∧ ∃ w₁ t i e,
      getEntryCreate alloc (setAttributes 0x3) 0 3 w r v = some (w₁, t, i) ∧
      w₁.entry t i = some e ∧ e.p = false ∧
      w' = w₁.setEntry t i (setAttributes attr (e.present paddr)) := by
  obtain ⟨hlow, hmap⟩ := of_assert hmap
  obtain ⟨hhigh, hmap⟩ := of_assert hmap
  obtain ⟨hattr, hmap⟩ := of_assert hmap
  obtain ⟨⟨w₁, t, i⟩, hwalk, hmap⟩ := of_bind hmap
  obtain ⟨e, he, hmap⟩ := of_bind hmap
  obtain ⟨hp, hmap⟩ := of_assert hmap
  exact ⟨⟨hlow, hhigh, hattr⟩, w₁, t, i, e, hwalk, he, hp, (Option.some.inj hmap).symm⟩

/-- A page mapped, with what the walk has done. -/
theorem mapPageToRaw_spec {alloc : World → Option (World × Nat × Nat)}
    {P : Nat → List Nat → Prop} {Q : World → World → Prop} (hrefl : ∀ w, Q w w)
    (htrans : ∀ {a b c}, Q a b → Q b c → Q a c)
    (hcreate : Creates R S alloc (setAttributes 0x3) P Q) (h : Sound w R S) (hr : R r)
    (hP : ∀ {p}, p <+: path v → P r p) {paddr attr : Nat}
    (hmap : mapPageToRaw alloc w r v paddr attr = some w') :
    Accepts v attr ∧ ∃ w₁ t, Sound w₁ R S ∧ Extends R w w₁ ∧ Q w w₁ ∧
      follow w₁.tables r (path v) = some t ∧ (pte w₁ r v).p = false ∧
      w' = w₁.setEntry t (index 0 v) (setAttributes attr ((pte w₁ r v).present paddr)) := by
  obtain ⟨haccepts, w₁, t, i, e, hwalk, he, hp, rfl⟩ := mapPageToRaw_cases hmap
  obtain ⟨h1, hext, hQ, hf, rfl⟩ :=
    getEntryCreate_spec hrefl htrans hcreate h hr (q := []) rfl le_rfl hP hwalk
  obtain rfl := Option.some.inj ((h1.entry_eq hr hf).symm.trans he)
  exact ⟨haccepts, w₁, t, h1, hext, hQ, hf, hp, rfl⟩

/-- A block that is taken, but is neither in the pool nor a table in use. -/
structure Stray (R : Nat → Prop) (w : World) (b : Nat) : Prop where
  used : w.heap.map[b]? = some true
  noPool : ∀ x ∈ w.heap.pool, x.1 ≠ b
  unreached : ∀ {r q}, R r → follow w.tables r q ≠ some b

theorem Fresh.stray (hu : Fresh w u) (h : Sound w R S) : Stray R w u :=
  ⟨hu.used, hu.noPool, fun hr hq => hu.ne (h.live hr hq) rfl⟩

/-! ## Inside an allocation -/

/-- What a walk does that takes its tables from the pool: nothing that is seen. -/
structure Nested (R : Nat → Prop) (w w' : World) : Prop where
  view : ∀ {r} (v : VAddr), R r → pte w' r v = pte w r v
  frames : w'.frames = w.frames
  map : w'.heap.map = w.heap.map
  allocating : w'.heap.allocating = w.heap.allocating
  stackHeap : w'.stackHeap = w.stackHeap
  fresh : ∀ {x}, Fresh w x → Fresh w' x
  stray : ∀ {b}, Stray R w' b → Stray R w b

theorem Nested.refl (w : World) : Nested R w w := ⟨fun _ _ => rfl, rfl, rfl, rfl, rfl, id, id⟩

theorem Nested.trans {a b c : World} (h : Nested R a b) (h' : Nested R b c) : Nested R a c :=
  ⟨fun v hr => (h'.view v hr).trans (h.view v hr), h'.frames.trans h.frames, h'.map.trans h.map,
    h'.allocating.trans h.allocating, h'.stackHeap.trans h.stackHeap,
    fun hx => h'.fresh (h.fresh hx), fun hb => h.stray (h'.stray hb)⟩

theorem takePool_cases (h : takePool w = some (w₁, u, phys)) :
    ∃ pool, w.heap.pool = (u, phys) :: pool ∧
      w₁ = { w with heap := { w.heap with pool := pool } } := by
  unfold takePool at h
  split at h
  · cases h
  · rename_i i p pool hpool
    cases h
    exact ⟨pool, hpool, rfl⟩

/-- A block of the pool is fresh once it is taken. -/
theorem takePool_spec (h : Sound w R S) (hp : takePool w = some (w₁, u, phys)) :
    Sound w₁ R S ∧ Fresh w₁ u ∧ (∀ {x}, Fresh w x → Fresh w₁ x ∧ x ≠ u) ∧
      ∀ {b}, Stray R w₁ b → Stray R w b ∨ b = u := by
  obtain ⟨pool, hpool, rfl⟩ := takePool_cases hp
  have hnodup := h.poolNodup
  rw [hpool, List.map_cons, nodup_cons] at hnodup
  have hmem : ∀ {b}, b ∈ pool → b ∈ w.heap.pool := by
    intro b hb
    rw [hpool]
    exact mem_cons_of_mem _ hb
  obtain ⟨hmap, hnone⟩ := h.poolBlock (by rw [hpool]; exact mem_cons_self)
  refine ⟨{ h with poolBlock := fun hb => h.poolBlock (hmem hb), poolNodup := hnodup.2 },
    ⟨hnone, hmap, ?_⟩, ?_, ?_⟩
  · rintro b hb rfl
    exact hnodup.1 (mem_map.mpr ⟨b, hb, rfl⟩)
  · intro x hx
    refine ⟨⟨hx.noTable, hx.used, fun b hb => hx.noPool b (hmem hb)⟩, ?_⟩
    rintro rfl
    exact hx.noPool (x, phys) (by rw [hpool]; exact mem_cons_self) rfl
  · intro b hb
    by_cases hbu : b = u
    · exact .inr hbu
    · refine .inl ⟨hb.used, ?_, hb.unreached⟩
      intro x hx
      rw [hpool] at hx
      rcases mem_cons.mp hx with rfl | hx
      · exact Ne.symm hbu
      · exact hb.noPool x hx

theorem takePool_creates (init : Entry → Entry) :
    Creates R S takePool init (fun _ _ => True) (Nested R) := by
  intro w r t i q n w₁ u phys e h hr hq hlen _ hn hi halloc
  obtain ⟨h1, hu, hfresh, hstray⟩ := takePool_spec h halloc
  obtain ⟨pool, -, rfl⟩ := takePool_cases halloc
  have hext : Extends R w { w with heap := { w.heap with pool := pool } } :=
    .of_tables rfl rfl rfl
  have hlink := hext.create (e := init (e.present phys)) h1 hu hr hq hn hi
  refine ⟨hext.create_sound h1 hu hr hq hn hi h hlen, hlink, link_next hu hn,
    ⟨?_, rfl, rfl, rfl, rfl, ?_, ?_⟩⟩
  · intro r' v hr'
    rcases hext.pte_create h1 hu hr hq hn hi h hlen hr' v
      with hv | ⟨hv, hz⟩
    · rw [hv]
      rfl
    · rw [hv, hz]
  · intro x hx
    obtain ⟨hx1, hne⟩ := hfresh hx
    exact hx1.link (by rw [hn]; rfl) hne
  · intro b hb
    have hold : Stray R { w with heap := { w.heap with pool := pool } } b :=
      ⟨hb.used, hb.noPool, fun hr' hq' => hb.unreached hr' (hlink.follow_eq hq')⟩
    rcases hstray hold with hb' | rfl
    · exact hb'
    · -- the new table is in use
      obtain ⟨n', hn', hnext⟩ := link_next hu hn
      exact absurd ((follow_snoc (hlink.follow_eq hq) hn').trans hnext) (hb.unreached hr)

/-! ## The heap's own pages -/

/-- Page `n` of block `b`. -/
def heapPage (b n : Nat) : VAddr := pageToPtr b + BitVec.ofNat 64 (n * 0x1000)

/-- The kernel directory gets a page at `y`, on a frame that was free. -/
structure MapsFresh (R : Nat → Prop) (w w' : World) (y : VAddr) (f attr : Nat) : Prop where
  was : (pte w w.kernel.root y).p = false
  frame : getFreePage w.frames = some (w'.frames, f)
  view : ∀ {r} (v : VAddr), R r → pte w' r v =
    if slotOf r v = slotOf w.kernel.root y
    then setAttributes attr ((pte w w.kernel.root y).present (f * PAGE_SIZE)) else pte w r v

theorem Stray.of_setEntry {b t i : Nat} {e : Entry} (hb : Stray R (w.setEntry t i e) b) :
    Stray R w b :=
  ⟨hb.used, hb.noPool, fun hr hq => hb.unreached hr (follow_setEntry.trans hq)⟩

/-- A page of the heap is not deferred, so it gets a frame first. -/
theorem mapHeapPage_cases (hmap : mapHeapPage w y = some (w', phys)) :
    ∃ frames f, getFreePage w.frames = some (frames, f) ∧ f ≠ INVALID_PAGE ∧
      phys = f * PAGE_SIZE ∧ mapPageToRaw takePool { w with frames := frames } w.kernel.root y
        (f * PAGE_SIZE) (ATTR_RW + ATTR_NOEXEC) = some w' := by
  obtain ⟨⟨frames, f⟩, hframe, hmap⟩ := of_bind hmap
  obtain ⟨hf, hmap⟩ := of_assert hmap
  obtain ⟨w2, hraw, hmap⟩ := of_bind hmap
  cases hmap
  exact ⟨frames, f, hframe, hf, rfl, hraw⟩

/-- What `mapPage` does for the heap. -/
theorem mapHeapPage_spec (h : Sound w R S) (hmap : mapHeapPage w y = some (w', phys)) :
    0xffffffff00000000 ≤ y.toNat ∧ ∃ f, phys = f * PAGE_SIZE ∧ f ≠ INVALID_PAGE ∧
      Sound w' R S ∧ Extends R w w' ∧ MapsFresh R w w' y f 5 ∧
      w'.heap.map = w.heap.map ∧ w'.heap.allocating = w.heap.allocating ∧
      w'.stackHeap = w.stackHeap ∧ (∀ {x}, Fresh w x → Fresh w' x) ∧
      ∀ {b}, Stray R w' b → Stray R w b := by
  obtain ⟨frames, f, hframe, hf, rfl, hraw⟩ := mapHeapPage_cases hmap
  -- the frame is taken first, of which the tables know nothing
  have h0 : Sound { w with frames := frames } R S := h.of_tables rfl rfl rfl fun _ hx => hx
  have hext0 : Extends R w { w with frames := frames } := .of_tables rfl rfl rfl
  have hk : R w.kernel.root := h.kernel
  obtain ⟨haccepts, w₁, t, h1, hext, hQ, hft, hp, rfl⟩ :=
    mapPageToRaw_spec (P := fun _ _ => True) Nested.refl Nested.trans (takePool_creates _) h0 hk
      (fun _ => trivial) hraw
  have hpte : ∀ {r} (v : VAddr), R r → pte w₁ r v = pte w r v := fun v hr => hQ.view v hr
  refine ⟨?_, f, rfl, hf, h1.setEntry hk hft _ _,
    (hext0.trans hext).trans (.setEntry hk hft _ _), ⟨?_, ?_, ?_⟩, hQ.map, hQ.allocating,
    hQ.stackHeap, fun {x} hx => ?_, fun {b} hb => ?_⟩
  · by_contra hc
    exact haccepts.user ⟨by omega, rfl⟩
  · rw [← hpte y hk]
    exact hp
  · rw [hframe]
    show some (frames, f) = some (w₁.frames, f)
    rw [hQ.frames]
  · intro r v hr
    rw [h1.pte_setEntry hk hr hft, hpte y hk, hpte v hr]
    rfl
  · have hx1 := hQ.fresh { hx with }
    exact ⟨(setEntry_of_ne (hx1.ne (h1.live hk hft)).symm).trans hx1.noTable, hx1.used, hx1.noPool⟩
  · have hb0 := hQ.stray hb.of_setEntry
    exact { hb0 with }

/-- A page of a block that the page heap has had. Blocks so far up that `pageToPtr` wraps round
cannot be mapped. -/
def HeapPage (w : World) (r : Nat) (v : VAddr) : Prop :=
  ∃ b n, b < w.heap.map.length ∧ n < 2 ∧ 0xffffffff00000000 ≤ (heapPage b n).toNat ∧
    slotOf r v = slotOf w.kernel.root (heapPage b n)

/-- One effect of the page heap on the entries: a page of its own is mapped, or pages of its own
are lost. -/
inductive HeapStep (R : Nat → Prop) (w w' : World) : Prop where
  | page {b n f : Nat} (hb : b < w.heap.map.length) (hn : n < 2)
      (hy : 0xffffffff00000000 ≤ (heapPage b n).toNat) (hfresh : MapsFresh R w w' (heapPage b n) f 5)
      (hmap : w'.heap.map = w.heap.map) (hkernel : w'.kernel = w.kernel)
  | wipe (hview : ∀ {r} (v : VAddr), R r →
        pte w' r v = pte w r v ∨ (HeapPage w r v ∧ pte w' r v = .zero))
      (hframes : w'.frames = w.frames) (hmap : w.heap.map.length ≤ w'.heap.map.length)
      (hkernel : w'.kernel = w.kernel)

abbrev HeapSteps (R : Nat → Prop) := Relation.ReflTransGen (HeapStep R)

theorem HeapStep.kernel_eq (h : HeapStep R w w') : w'.kernel = w.kernel := by
  cases h with
  | page _ _ _ _ _ hk => exact hk
  | wipe _ _ _ hk => exact hk

theorem HeapStep.length_le (h : HeapStep R w w') : w.heap.map.length ≤ w'.heap.map.length := by
  cases h with
  | page _ _ _ _ hmap _ => rw [hmap]
  | wipe _ _ hmap _ => exact hmap

theorem HeapPage.mono (h : HeapPage w r v) (hk : w'.kernel = w.kernel)
    (hlen : w.heap.map.length ≤ w'.heap.map.length) : HeapPage w' r v := by
  obtain ⟨b, n, hb, hn, hy, hs⟩ := h
  exact ⟨b, n, by omega, hn, hy, by rw [hk]; exact hs⟩

theorem HeapStep.pte_eq (h : HeapStep R w w') (hr : R r)
    (hv : ¬ HeapPage w' r v) : pte w' r v = pte w r v := by
  have hv0 : ¬ HeapPage w r v := fun hc => hv (hc.mono h.kernel_eq h.length_le)
  cases h with
  | page hb hn hy hfresh _ _ =>
    rw [hfresh.view v hr, if_neg]
    exact fun hs => hv0 ⟨_, _, hb, hn, hy, hs⟩
  | wipe hview _ _ _ =>
    rcases hview v hr with hv' | ⟨hc, -⟩
    · exact hv'
    · exact absurd hc hv0

section Steps

theorem HeapSteps.kernel_eq (h : HeapSteps R w w') : w'.kernel = w.kernel := by
  induction h with
  | refl => rfl
  | tail _ hs ih => exact hs.kernel_eq.trans ih

theorem HeapSteps.length_le (h : HeapSteps R w w') :
    w.heap.map.length ≤ w'.heap.map.length := by
  induction h with
  | refl => exact le_rfl
  | tail _ hs ih => exact ih.trans hs.length_le

/-- Runs of the page heap leave the other pages alone. -/
theorem HeapSteps.pte_eq (h : HeapSteps R w w') {r : Nat} {v : VAddr} (hr : R r)
    (hv : ¬ HeapPage w' r v) : pte w' r v = pte w r v := by
  induction h with
  | refl => rfl
  | tail hpre hs ih =>
    rw [hs.pte_eq hr hv]
    exact ih fun hc => hv (hc.mono hs.kernel_eq hs.length_le)

end Steps

theorem HeapSteps.quiet (hview : ∀ {r} (v : VAddr), R r → pte w' r v = pte w r v)
    (hframes : w'.frames = w.frames) (hmap : w.heap.map.length ≤ w'.heap.map.length)
    (hkernel : w'.kernel = w.kernel) : HeapSteps R w w' :=
  .single (.wipe (fun v hr => .inl (hview v hr)) hframes hmap hkernel)

/-- Every block beyond the static ones is mapped while it is taken, and there are no more blocks
than the heap has addresses for. -/
structure Backed (w : World) : Prop where
  room : w.heap.map.length ≤ 2 ^ 16
  page : ∀ {b n : Nat}, 16 ≤ b → n < 2 → w.heap.map[b]? = some true →
    (pte w w.kernel.root (heapPage b n)).p = true

/-- A page that is mapped stays so when another is. -/
theorem MapsFresh.p_mono (h : MapsFresh R w w' y f 5) (hr : R r)
    (hv : slotOf r v = slotOf w.kernel.root y ∨ (pte w r v).p = true) :
    (pte w' r v).p = true := by
  rw [h.view v hr]
  by_cases hs : slotOf r v = slotOf w.kernel.root y
  · rw [if_pos hs]
    rfl
  · rw [if_neg hs]
    rcases hv with hv | hv
    · exact absurd hv hs
    · exact hv

theorem MapsFresh.us_eq (h : MapsFresh R w w' y f 5) (hw : Sound w R S) (hr : R r)
    (v : VAddr) : (pte w' r v).us = (pte w r v).us := by
  rw [h.view v hr]
  by_cases hs : slotOf r v = slotOf w.kernel.root y
  · rw [if_pos hs, hw.pte_of_slot hr hw.kernel hs]
    exact Bool.or_false _
  · rw [if_neg hs]

/-! ## Allocation from outside -/

/-- What the page heap does on the way, with its effects on the entries. -/
structure Grown (R : Nat → Prop) (w w' : World) : Prop where
  steps : HeapSteps R w w'
  allocating : w'.heap.allocating = w.heap.allocating
  stackHeap : w'.stackHeap = w.stackHeap
  fresh : ∀ {x}, Fresh w x → Fresh w' x
  /-- What user code may use is what it might before. -/
  user : ∀ {r} (v : VAddr), R r → (pte w' r v).us = (pte w r v).us

theorem Grown.refl (w : World) : Grown R w w := ⟨.refl, rfl, rfl, id, fun _ _ => rfl⟩

theorem Grown.trans {a b c : World} (h : Grown R a b) (h' : Grown R b c) : Grown R a c :=
  ⟨h.steps.trans h'.steps, h'.allocating.trans h.allocating, h'.stackHeap.trans h.stackHeap,
    fun hx => h'.fresh (h.fresh hx), fun v hr => (h'.user v hr).trans (h.user v hr)⟩

/-- What an allocation gives. -/
structure Allocated (R : Nat → Prop) (S : Nat) (w w₁ : World) (u : Nat) : Prop where
  sound : Sound w₁ R S
  ext : Extends R w w₁
  grown : Grown R w w₁
  block : Fresh w₁ u
  new : ∀ {x}, Fresh w x → x ≠ u
  stray : ∀ {b}, Stray R w₁ b → Stray R w b ∨ b = u
  backed : Backed w → Backed w₁

theorem getElem?_lt {l : List Bool} {i : Nat} {b : Bool} (h : l[i]? = some b) : i < l.length := by
  by_contra hc
  rw [List.getElem?_eq_none (by omega)] at h
  cases h

/-- The start of `allocPage`. -/
def World.reserved (w : World) (k : Nat) : World :=
  { w with heap := { w.heap with allocating := true, map := w.heap.map.set k true } }

/-- `allocPage` maps two pages in the kernel directory, or none. -/
theorem allocPage_cases {k : Nat} (ha : allocPage w k = some (w₁, u, phys)) :
    w.heap.map[k]? = some false ∧ u = k ∧
      ((16 ≤ k ∧ ∃ w2 w3 phys3, mapHeapPage (w.reserved k) (heapPage k 0) = some (w2, phys) ∧
          mapHeapPage w2 (heapPage k 1) = some (w3, phys3) ∧ w₁ = w3.allocated) ∨
        (k < 16 ∧ w₁ = (w.reserved k).allocated ∧
          phys = w.pageHeapStart + k * PAGE_SIZE * 2)) := by
  obtain ⟨hfree, ha⟩ := of_assert ha
  split at ha
  · obtain ⟨⟨w2, phys2⟩, hmap2, ha⟩ := of_bind ha
    obtain ⟨⟨w3, phys3⟩, hmap3, ha⟩ := of_bind ha
    cases ha
    rw [show pageToPtr u = heapPage u 0 by simp [heapPage]] at hmap2
    exact ⟨hfree, rfl, .inl ⟨by omega, w2, w3, phys3, hmap2, hmap3, rfl⟩⟩
  · cases ha
    exact ⟨hfree, rfl, .inr ⟨by omega, rfl, rfl⟩⟩

theorem Sound.reserve (h : Sound w R S) (hu : w.heap.map[u]? = some false) :
    Sound (w.reserved u) R S ∧ Fresh (w.reserved u) u ∧
      (∀ {x}, Fresh w x → Fresh (w.reserved u) x ∧ x ≠ u) ∧
      ∀ {b : Nat}, (w.reserved u).heap.map[b]? = some true →
        w.heap.map[b]? = some true ∨ b = u := by
  have hlt := getElem?_lt hu
  have hne : ∀ {x : Nat}, w.heap.map[x]? = some true → x ≠ u := by
    rintro x hx rfl
    rw [hx] at hu
    cases hu
  have hkeep : ∀ x : Nat, w.heap.map[x]? = some true →
      (w.heap.map.set u true)[x]? = some true := by
    intro x hx
    rw [List.getElem?_set_ne (hne hx).symm, hx]
  have hnone : w.tables u = none := by
    rcases hc : w.tables u with _ | n
    · rfl
    · exact absurd rfl (hne (h.block (by rw [hc]; rfl)))
  refine ⟨h.of_tables rfl rfl rfl hkeep, ⟨hnone, ?_, ?_⟩, ?_, ?_⟩
  · show (w.heap.map.set u true)[u]? = some true
    simp [hlt]
  · exact fun b hb => hne (h.poolBlock hb).1
  · exact fun hx => ⟨⟨hx.noTable, hkeep _ hx.used, hx.noPool⟩, hne hx.used⟩
  · intro b hb
    by_cases hbu : b = u
    · exact .inr hbu
    · refine .inl ?_
      rw [← hb]
      exact (List.getElem?_set_ne (Ne.symm hbu)).symm

theorem allocPage_spec (h : Sound w R S) (hidle : w.heap.allocating = false) {k u phys : Nat}
    (ha : allocPage w k = some (w₁, u, phys)) : Allocated R S w w₁ u := by
  obtain ⟨hfree, rfl, ha⟩ := allocPage_cases ha
  obtain ⟨h0, hk, hfresh0, hmap0⟩ := h.reserve hfree
  have hlt := getElem?_lt hk.used
  have hlen0 : (w.reserved u).heap.map.length = w.heap.map.length := List.length_set
  have hext0 : Extends R w (w.reserved u) := .of_tables rfl rfl rfl
  have hsteps0 : HeapSteps R w (w.reserved u) := .quiet (fun _ _ => rfl) rfl hlen0.ge rfl
  have hstray0 : ∀ {b}, Stray R (w.reserved u) b → Stray R w b ∨ b = u := fun hb =>
    (hmap0 hb.used).imp_left fun hused => ⟨hused, hb.noPool, hb.unreached⟩
  have hbacked0 : Backed w → ∀ b n : Nat, 16 ≤ b → n < 2 →
      (w.reserved u).heap.map[b]? = some true → b ≠ u →
      (pte (w.reserved u) w.kernel.root (heapPage b n)).p = true := fun hw b n hb hn hmap hne =>
    hw.page hb hn ((hmap0 hmap).resolve_right hne)
  -- what is left to do is to reset the flag
  have hclose : ∀ {x : World}, Sound x R S → Extends R w x → HeapSteps R w x →
      x.stackHeap = w.stackHeap → (∀ {y}, Fresh (w.reserved u) y → Fresh x y) →
      (∀ {b}, Stray R x b → Stray R (w.reserved u) b) → (Backed w → Backed x) →
      (∀ {r} (v : VAddr), R r → (pte x r v).us = (pte w r v).us) →
      Allocated R S w x.allocated u := by
    intro x hx hext hsteps hstack hfr hst hback hus
    have hdone : ∀ {y}, Fresh (w.reserved u) y → Fresh x.allocated y := fun hy =>
      ⟨(hfr hy).noTable, (hfr hy).used, (hfr hy).noPool⟩
    have hlast : HeapSteps R x x.allocated := .quiet (fun _ _ => rfl) rfl le_rfl rfl
    exact ⟨hx.of_tables rfl rfl rfl fun _ hx => hx, hext.trans (.of_tables rfl rfl rfl),
      ⟨hsteps.trans hlast, hidle.symm, hstack, fun hy => hdone (hfresh0 hy).1, hus⟩, hdone hk,
      fun hy => (hfresh0 hy).2, fun hb => hstray0 (hst { hb with }),
      fun hw => ⟨(hback hw).room, (hback hw).page⟩⟩
  rcases ha with ⟨-, w2, w3, phys3, hmap2, hmap3, rfl⟩ | ⟨hstatic, rfl, -⟩
  · obtain ⟨hy2, f2, -, -, h2, hext2, hfr2, hmapEq2, -, hstack2, hkeep2, hstray2⟩ :=
      mapHeapPage_spec h0 hmap2
    obtain ⟨hy3, f3, -, -, h3, hext3, hfr3, hmapEq3, -, hstack3, hkeep3, hstray3⟩ :=
      mapHeapPage_spec h2 hmap3
    refine hclose h3 ((hext0.trans hext2).trans hext3) ?_ (hstack3.trans hstack2)
      (fun hy => hkeep3 (hkeep2 hy)) (fun hb => hstray2 (hstray3 hb)) ?_
      (fun v hr => (hfr3.us_eq h2 hr v).trans (hfr2.us_eq h0 hr v))
    · exact (hsteps0.tail (.page hlt (by omega) hy2 hfr2 hmapEq2 hext2.kernel)).tail
        (.page (by rw [hmapEq2]; exact hlt) (by omega) hy3 hfr3 hmapEq3 hext3.kernel)
    · intro hw
      refine ⟨by rw [hmapEq3, hmapEq2, hlen0]; exact hw.room, fun {b n} hb hn hmap => ?_⟩
      rw [hmapEq3, hmapEq2] at hmap
      rw [hext3.kernel, hext2.kernel]
      have hkr : R w.kernel.root := h.kernel
      by_cases hbk : b = u
      · subst hbk
        rcases (by omega : n = 0 ∨ n = 1) with rfl | rfl
        · exact hfr3.p_mono hkr (.inr (hfr2.p_mono hkr (.inl rfl)))
        · exact hfr3.p_mono hkr (.inl (by rw [hext2.kernel]))
      · exact hfr3.p_mono hkr (.inr (hfr2.p_mono hkr (.inr (hbacked0 hw b n hb hn hmap hbk))))
  · refine hclose h0 hext0 hsteps0 rfl id id (fun hw => ?_) fun _ _ => rfl
    refine ⟨by rw [hlen0]; exact hw.room, fun {b n} hb hn hmap => hbacked0 hw b n hb hn hmap ?_⟩
    omega

/-- The block beyond the last address cannot be mapped. -/
theorem allocPage_room {k : Nat} (ha : allocPage w k = some (w₁, u, phys))
    (hk : k ≤ 2 ^ 16) : k < 2 ^ 16 := by
  refine lt_of_le_of_ne hk ?_
  rintro rfl
  obtain ⟨-, -, ⟨-, w2, -, -, hmap, -⟩ | ⟨hc, -⟩⟩ := allocPage_cases ha
  · obtain ⟨frames, f, -, -, -, hraw⟩ := mapHeapPage_cases hmap
    exact (mapPageToRaw_cases hraw).1.user (by decide)
  · omega

theorem findIdx_unused {i : Nat} (h : frames.findIdx? (fun used => !used) = some i) :
    i < frames.length ∧ frames[i]? = some false := by
  obtain ⟨hi, hb, -⟩ := List.findIdx?_eq_some_iff_getElem.mp h
  refine ⟨hi, ?_⟩
  rw [List.getElem?_eq_getElem hi]
  simpa using hb

/-- The block that is next: the first that is free, or a new one. -/
def nextFree (map : List Bool) : Nat := (map.findIdx? (fun used => !used)).getD map.length

/-- The map, with room for it. -/
def withRoom (map : List Bool) : List Bool :=
  if nextFree map < map.length then map else map ++ [false]

theorem nextFree_spec (map : List Bool) :
    nextFree map ≤ map.length ∧ (withRoom map)[nextFree map]? = some false ∧
      (withRoom map).length = max map.length (nextFree map + 1) ∧
      ∀ b : Nat, (withRoom map)[b]? = some true ↔ map[b]? = some true := by
  rw [withRoom, nextFree]
  cases hi : map.findIdx? (fun used => !used) with
  | some i =>
    obtain ⟨hlt, hfree⟩ := findIdx_unused hi
    simp only [Option.getD_some, if_pos hlt]
    exact ⟨hlt.le, hfree, by omega, fun _ => trivial⟩
  | none =>
    simp only [Option.getD_none, lt_irrefl, if_false, le_refl, true_and]
    refine ⟨by simp, ?_, fun b => used_append_false (n := 1) b⟩
    rw [length_append, List.length_singleton]
    omega

theorem nextFree_unused (map : List Bool) : ¬ Used map (nextFree map) := by
  obtain ⟨-, hfree, -, hmap⟩ := nextFree_spec map
  rw [Used, ← hmap, hfree]
  exact Bool.noConfusion ∘ Option.some.inj

theorem used_take (map : List Bool) (b : Nat) :
    Used ((withRoom map).set (nextFree map) true) b ↔ Used map b ∨ b = nextFree map := by
  obtain ⟨-, hfree, -, hmap⟩ := nextFree_spec map
  rw [used_set_true (getElem?_lt hfree)]
  exact or_congr_left (hmap b)

def World.nextBlock (w : World) : Nat := nextFree w.heap.map

def World.roomy (w : World) : List Bool := withRoom w.heap.map

theorem allocBlock_eq (hidle : w.heap.allocating = false) :
    allocBlock w = allocPage { w with heap := { w.heap with map := w.roomy } } w.nextBlock := by
  rw [allocBlock, if_neg (by rw [hidle]; exact Bool.noConfusion), World.roomy, World.nextBlock,
    withRoom, nextFree]
  cases hi : w.heap.map.findIdx? (fun used => !used) with
  | some i =>
    have hlt := (findIdx_unused hi).1
    simp only [Option.getD_some, if_pos hlt]
  | none => simp only [Option.getD_none, lt_irrefl, if_false]

theorem nextBlock_spec (w : World) :
    w.nextBlock ≤ w.heap.map.length ∧ w.roomy[w.nextBlock]? = some false ∧
      w.roomy.length = max w.heap.map.length (w.nextBlock + 1) ∧
      ∀ b : Nat, w.roomy[b]? = some true ↔ w.heap.map[b]? = some true := nextFree_spec w.heap.map

/-- `allocBlock`, called from outside or out of itself. -/
theorem allocBlock_spec (h : Sound w R S)
    (ha : allocBlock w = some (w₁, u, phys)) : Allocated R S w w₁ u := by
  by_cases hb : w.heap.allocating = true
  · rw [allocBlock, if_pos hb] at ha
    obtain ⟨h1, hu, hfresh, hstray⟩ := takePool_spec h ha
    obtain ⟨pool, -, rfl⟩ := takePool_cases ha
    exact ⟨h1, .of_tables rfl rfl rfl,
      ⟨.quiet (fun _ _ => rfl) rfl le_rfl rfl, rfl, rfl, fun hx => (hfresh hx).1, fun _ _ => rfl⟩,
      hu,
      fun hx => (hfresh hx).2, hstray, fun hw => ⟨hw.room, hw.page⟩⟩
  · have hidle : w.heap.allocating = false := by simpa using hb
    rw [allocBlock_eq hidle] at ha
    -- the map may grow by one block first
    obtain ⟨hle, -, hlen, hmap⟩ := nextBlock_spec w
    have h0 : Sound { w with heap := { w.heap with map := w.roomy } } R S :=
      h.of_tables rfl rfl rfl fun x hx => (hmap x).mpr hx
    have hfresh : ∀ {x}, Fresh w x → Fresh { w with heap := { w.heap with map := w.roomy } } x :=
      fun {x} hx => ⟨hx.noTable, (hmap x).mpr hx.used, hx.noPool⟩
    have hgrown : Grown R w { w with heap := { w.heap with map := w.roomy } } :=
      ⟨.quiet (fun _ _ => rfl) rfl (by show _ ≤ w.roomy.length; omega) rfl, rfl, rfl, hfresh,
        fun _ _ => rfl⟩
    have hext0 : Extends R w { w with heap := { w.heap with map := w.roomy } } :=
      .of_tables rfl rfl rfl
    have halloc := allocPage_spec h0 hidle ha
    refine ⟨halloc.sound, hext0.trans halloc.ext, hgrown.trans halloc.grown, halloc.block,
      fun hx => halloc.new (hfresh hx), fun {b} hb => ?_, fun hw => halloc.backed ⟨?_, ?_⟩⟩
    · exact (halloc.stray hb).imp_left fun hb => ⟨(hmap b).mp hb.used, hb.noPool, hb.unreached⟩
    · have hlt := allocPage_room ha (hle.trans hw.room)
      have hroom := hw.room
      show w.roomy.length ≤ _
      omega
    · exact fun {b n} hb hn hused => hw.page hb hn ((hmap b).mp hused)

/-- A table created from outside. What the slot led to in between is lost, and that can only
be pages of the heap. -/
theorem allocBlock_creates (init : Entry → Entry) :
    Creates R S allocBlock init (fun _ _ => True) (Grown R) := by
  intro w r t i q n w₁ u phys e h hr hq hlen _ hn hi ha
  have halloc := allocBlock_spec h ha
  obtain ⟨n1, hn1, -⟩ := halloc.ext.node hn
  refine ⟨halloc.ext.create_sound halloc.sound halloc.block hr hq hn hi h hlen,
    halloc.ext.create halloc.sound halloc.block hr hq hn hi, link_next halloc.block hn1,
    halloc.grown.steps.tail (.wipe ?_ rfl le_rfl rfl), halloc.grown.allocating,
    halloc.grown.stackHeap, ?_, ?_⟩
  · intro r' v hr'
    rcases halloc.ext.pte_create halloc.sound halloc.block hr hq hn hi h hlen hr' v with hv | ⟨hv, hz⟩
    · exact .inl hv
    · by_cases hheap : HeapPage w₁ r' v
      · exact .inr ⟨hheap, hv⟩
      · refine .inl ?_
        rw [hv, halloc.grown.steps.pte_eq hr' hheap, hz]
  · intro x hx
    exact (halloc.grown.fresh hx).link (by rw [hn1]; rfl) (halloc.new hx)
  · intro r' v hr'
    rcases halloc.ext.pte_create halloc.sound halloc.block hr hq hn hi h hlen hr' v with hv | ⟨hv, hz⟩
    · rw [hv]
      exact halloc.grown.user v hr'
    · rw [hv, hz]

/-! ## The pool and the pages of others -/

theorem Sound.push (h : Sound w R S) (hu : Fresh w u) :
    Sound { w with heap := { w.heap with pool := (u, phys) :: w.heap.pool } } R S := by
  refine { h with poolBlock := ?_, poolNodup := ?_ }
  · intro b hb
    rcases mem_cons.mp hb with rfl | hb
    · exact ⟨hu.used, hu.noTable⟩
    · exact h.poolBlock hb
  · refine nodup_cons.mpr ⟨?_, h.poolNodup⟩
    intro hmem
    obtain ⟨b, hb, hbu⟩ := mem_map.mp hmem
    exact hu.noPool b hb hbu

/-- What filling the pool does. -/
structure Refilled (R : Nat → Prop) (S : Nat) (w w' : World) : Prop where
  sound : Sound w' R S
  ext : Extends R w w'
  grown : Grown R w w'
  stray : ∀ {b}, Stray R w' b → Stray R w b
  backed : Backed w → Backed w'

theorem Refilled.refl (h : Sound w R S) : Refilled R S w w :=
  ⟨h, .refl _, .refl _, id, id⟩

/-- What one round keeps is kept by `refillPool`. -/
theorem refillRounds_induct {P : World → Prop} {k : Nat} (h : P w)
    (hround : ∀ {w w₁ u phys}, P w → allocBlock w = some (w₁, u, phys) →
      P { w₁ with heap := { w₁.heap with pool := (u, phys) :: w₁.heap.pool } })
    (hr : refillRounds k w = some w') : P w' := by
  induction k generalizing w with
  | zero =>
    rw [refillRounds] at hr
    split at hr
    · cases hr
    · cases hr
      exact h
  | succ k ih =>
    rw [refillRounds] at hr
    split at hr
    · obtain ⟨⟨w₁, u, phys⟩, ha, hr⟩ := of_bind hr
      exact ih (hround h ha) hr
    · cases hr
      exact h

theorem refillPool_induct {P : World → Prop} (h : P w)
    (hround : ∀ {w w₁ u phys}, P w → allocBlock w = some (w₁, u, phys) →
      P { w₁ with heap := { w₁.heap with pool := (u, phys) :: w₁.heap.pool } })
    (hr : refillPool w = some w') : P w' := by
  unfold refillPool at hr
  split at hr
  · cases hr
    exact h
  · exact refillRounds_induct h hround hr

theorem Refilled.round (h : Refilled R S w w') (ha : allocBlock w' = some (w₁, u, phys)) :
    Refilled R S w { w₁ with heap := { w₁.heap with pool := (u, phys) :: w₁.heap.pool } } := by
  have halloc := allocBlock_spec h.sound ha
  have hsteps : HeapSteps R w₁
      { w₁ with heap := { w₁.heap with pool := (u, phys) :: w₁.heap.pool } } :=
    .quiet (fun _ _ => rfl) rfl le_rfl rfl
  have hgrown := h.grown.trans halloc.grown
  refine ⟨halloc.sound.push halloc.block,
    (h.ext.trans halloc.ext).trans (.of_tables rfl rfl rfl),
    ⟨hgrown.steps.trans hsteps, hgrown.allocating, hgrown.stackHeap, fun {x} hx => ?_,
      hgrown.user⟩, fun {b} hb => h.stray ?_,
    fun hw => ⟨(halloc.backed (h.backed hw)).room, (halloc.backed (h.backed hw)).page⟩⟩
  · have hx1 := hgrown.fresh hx
    refine ⟨hx1.noTable, hx1.used, fun b hb => ?_⟩
    rcases mem_cons.mp hb with rfl | hb
    · exact Ne.symm (halloc.new (h.grown.fresh hx))
    · exact hx1.noPool b hb
  · have hb1 : Stray R w₁ b :=
      ⟨hb.used, fun x hx => hb.noPool x (mem_cons_of_mem _ hx), hb.unreached⟩
    rcases halloc.stray hb1 with hb1 | rfl
    · exact hb1
    · exact absurd rfl (hb.noPool (b, phys) mem_cons_self)

theorem refillPool_spec (h : Sound w R S) (hr : refillPool w = some w') : Refilled R S w w' :=
  refillPool_induct (.refl h) (fun hw ha => hw.round ha) hr

/-- The entry of `v` is written, and nothing else. -/
structure Writes (R : Nat → Prop) (w w' : World) (r : Nat) (v : VAddr) (e : Entry) : Prop where
  view : ∀ {r'} (v' : VAddr), R r' →
    pte w' r' v' = if slotOf r' v' = slotOf r v then e else pte w r' v'
  frames : w'.frames = w.frames
  heap : w'.heap = w.heap
  stackHeap : w'.stackHeap = w.stackHeap
  kernel : w'.kernel = w.kernel
  follow_eq : ∀ {t p}, follow w'.tables t p = follow w.tables t p
  noTable : ∀ {x}, w.tables x = none → w'.tables x = none

theorem Sound.writes (h : Sound w R S) {t : Nat} (hr : R r)
    (ht : follow w.tables r (path v) = some t) (e : Entry) :
    Writes R w (w.setEntry t (index 0 v) e) r v e ∧
      Sound (w.setEntry t (index 0 v) e) R S ∧ Extends R w (w.setEntry t (index 0 v) e) := by
  refine ⟨⟨fun v' hr' => h.pte_setEntry hr hr' ht e v', rfl, rfl, rfl, rfl, follow_setEntry, ?_⟩,
    h.setEntry hr ht _ _, .setEntry hr ht _ _⟩
  intro x hx
  have hxt : x ≠ t := by
    rintro rfl
    have hlive := h.live hr ht
    rw [hx] at hlive
    cases hlive
  exact (setEntry_of_ne hxt).trans hx

/-- `mapPageTo`: the write of an entry, after what the walk has done and before the pool is
filled. -/
theorem mapPageTo_writes {P : Nat → List Nat → Prop} {Q : World → World → Prop}
    (hrefl : ∀ w, Q w w) (htrans : ∀ {a b c}, Q a b → Q b c → Q a c)
    (hcreate : Creates R S allocBlock (setAttributes 0x3) P Q) (h : Sound w R S) (hr : R r)
    (hP : ∀ {p}, p <+: path v → P r p) {paddr attr : Nat}
    (hmap : mapPageTo w r v paddr attr = some w') :
    Accepts v attr ∧ ∃ w₁ t w2, Sound w₁ R S ∧ Extends R w w₁ ∧ Q w w₁ ∧
      follow w₁.tables r (path v) = some t ∧ (pte w₁ r v).p = false ∧
      w2 = w₁.setEntry t (index 0 v) (setAttributes attr ((pte w₁ r v).present paddr)) ∧
      Writes R w₁ w2 r v (setAttributes attr ((pte w₁ r v).present paddr)) ∧ Sound w2 R S ∧
      Extends R w₁ w2 ∧ refillPool w2 = some w' := by
  obtain ⟨w2, hraw, hrefill⟩ := of_bind hmap
  obtain ⟨haccepts, w₁, t, h1, hext1, hQ, hf, hp, rfl⟩ :=
    mapPageToRaw_spec hrefl htrans hcreate h hr hP hraw
  obtain ⟨hwrite, h2, hext2⟩ :=
    h1.writes hr hf (setAttributes attr ((pte w₁ r v).present paddr))
  exact ⟨haccepts, w₁, t, _, h1, hext1, hQ, hf, hp, rfl, hwrite, h2, hext2, hrefill⟩

theorem mapPageTo_spec (h : Sound w R S) (hr : R r) {paddr attr : Nat}
    (hmap : mapPageTo w r v paddr attr = some w') :
    Accepts v attr ∧ ∃ w₁ w2, Grown R w w₁ ∧ (pte w₁ r v).p = false ∧
      Writes R w₁ w2 r v (setAttributes attr ((pte w₁ r v).present paddr)) ∧
      Refilled R S w2 w' ∧ Sound w' R S ∧ Extends R w w' := by
  obtain ⟨haccepts, w₁, t, w2, -, hext1, hgrown1, -, hp, -, hwrite, h2, hext2, hrefill⟩ :=
    mapPageTo_writes (P := fun _ _ => True) Grown.refl Grown.trans (allocBlock_creates _) h hr
      (fun _ => trivial) hmap
  have href := refillPool_spec h2 hrefill
  exact ⟨haccepts, w₁, w2, hgrown1, hp, hwrite, href, href.sound,
    (hext1.trans hext2).trans href.ext⟩

end Flix.Paging

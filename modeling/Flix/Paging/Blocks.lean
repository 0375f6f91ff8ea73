import Flix.Paging.Frames

/-!
# The blocks of the page heap

What `PageHeap` has to be in order for the walks above it to find what they need. A
block beyond the static ones is mapped in the kernel directory while it is taken, and
not otherwise. The 512 pages that one table maps are 256 blocks, and for all blocks that
there have been so far the table is there. So an allocation needs a table only when it
is the first of such a *region*, and then one, which the pool has.
-/

namespace Flix.Paging

open Function Radix

variable {w w₁ w' : World} {R : Nat → Prop} {S : Nat}

/-! ## Where blocks are -/

variable {b n j t t' i u : Nat} {e : Entry}

theorem heapPage_toNat (hb : b < 2 ^ 16) (hn : n < 2) :
    (heapPage b n).toNat = 0xffffffffe0000000 + b * 8192 + n * 4096 := by
  have hbase : pageHeapBase.toNat = 0xffffffffe0000000 := rfl
  simp only [heapPage, pageToPtr, BitVec.toNat_add, BitVec.toNat_ofNat, PAGE_SIZE]
  omega

/-- The path to the table of a block's pages. -/
def region (b : Nat) : List Nat := [511, 511, 256 + b / 256]

theorem path_heapPage (hb : b < 2 ^ 16) (hn : n < 2) : path (heapPage b n) = region b := by
  simp only [path, region, index, heapPage_toNat hb hn, List.cons.injEq, and_true]
  omega

theorem slotOf_heapPage {b' n' r r' : Nat} (hb : b < 2 ^ 16) (hb' : b' < 2 ^ 16) (hn : n < 2)
    (hn' : n' < 2) (hs : slotOf r (heapPage b n) = slotOf r' (heapPage b' n')) :
    b = b' ∧ n = n' := by
  have hpage := path_eq_iff.mp (slotOf_eq_iff.mp hs).1
  rw [pageOf, pageOf, heapPage_toNat hb hn, heapPage_toNat hb' hn', PAGE_SIZE] at hpage
  omega

theorem heapPage_high (hb : b < 2 ^ 16) (hn : n < 2) :
    0xffffffff00000000 ≤ (heapPage b n).toNat := by
  rw [heapPage_toNat hb hn]
  omega

/-! ## Walks along what is there -/

/-- A creating walk creates nothing as long as the tables are there. -/
theorem getEntryCreate_follow {alloc : World → Option (World × Nat × Nat)} {init : Entry → Entry}
    {stop k : Nat} {v : VAddr} (h : follow w.tables t (pathTo (stop + k) j v) = some t') :
    getEntryCreate alloc init stop (k + j) w t v = getEntryCreate alloc init stop k w t' v := by
  induction j generalizing t with
  | zero =>
    cases h
    rfl
  | succ j ih =>
    obtain ⟨n, hn, h⟩ := of_bind h
    obtain ⟨u, hu, h⟩ := of_bind h
    rw [← ih h, ← Nat.add_assoc, getEntryCreate, hn]
    have hlevel : stop + (k + j) + 1 = stop + k + j + 1 := by omega
    simp only [bind_eq_bind, bind_some, hlevel, hu]

theorem mapPageToRaw_eq {alloc : World → Option (World × Nat × Nat)} {r attr : Nat}
    {v : VAddr} (paddr : Nat) (ha : Accepts v attr)
    (hwalk : getEntryCreate alloc (setAttributes 0x3) 0 3 w r v = some (w₁, t, index 0 v))
    (he : w₁.entry t (index 0 v) = some e) (hp : e.p = false) : mapPageToRaw alloc w r v paddr attr
      = some (w₁.setEntry t (index 0 v) (setAttributes attr (e.present paddr))) := by
  simp only [mapPageToRaw, assert_pos ha.user, assert_pos ha.kernel, assert_pos ha.known,
    bind_eq_bind, bind_some, mapPageToF, hwalk, he, assert_pos hp]

/-! ## Frames there are -/

/-- The next `k` frames that are handed out are all as they should be, with what is left. -/
def Supply (P : Nat → List Bool → Prop) : Nat → List Bool → Prop
  | 0, _ => True
  | k + 1, frames => ∃ l f, getFreePage frames = some (l, f) ∧ P f l ∧ Supply P k l

section Supply

variable {P Q : Nat → List Bool → Prop} {frames l : List Bool} {k j f : Nat}

theorem Supply.next (h : Supply P (k + 1) frames) (hl : getFreePage frames = some (l, f)) :
    P f l ∧ Supply P k l := by
  obtain ⟨l', f', hl', hf, hrest⟩ := h
  rw [hl] at hl'
  cases hl'
  exact ⟨hf, hrest⟩

theorem Supply.mono (h : Supply P k frames) (hk : j ≤ k) : Supply P j frames := by
  induction j generalizing k frames with
  | zero => trivial
  | succ j ih =>
    obtain ⟨k, rfl⟩ : ∃ i, k = i + 1 := ⟨k - 1, by omega⟩
    obtain ⟨l, f, hl, hf, hrest⟩ := h
    exact ⟨l, f, hl, hf, ih hrest (by omega)⟩

theorem Supply.imp (h : Supply P k frames) (hPQ : ∀ f l, P f l → Q f l) : Supply Q k frames := by
  induction k generalizing frames with
  | zero => trivial
  | succ k ih =>
    obtain ⟨l, f, hl, hf, hrest⟩ := h
    exact ⟨l, f, hl, hPQ f l hf, ih hrest⟩

/-- A frame that an entry does not take for none. -/
def Named (f : Nat) (_ : List Bool) : Prop := f ≠ INVALID_PAGE

theorem supply_of_length {M : Nat} (hM : M ≤ INVALID_PAGE) (h : frames.length + 16 * k < M) :
    Supply (fun f l => Named f l ∧ l.length < M) k frames := by
  induction k generalizing frames with
  | zero => trivial
  | succ k ih =>
    obtain ⟨l, f, hl, hf, hlen⟩ := getFreePage_total frames
    have hf' : f ≠ INVALID_PAGE := by omega
    exact ⟨l, f, hl, ⟨hf', by omega⟩, ih (by omega)⟩

theorem Supply.length_lt {M : Nat} (h : Supply (fun f l => Named f l ∧ l.length < M) (k + 1) frames) :
    frames.length < M := by
  obtain ⟨l, f, hl, ⟨-, hlen⟩, -⟩ := h
  exact (getFreePage_length hl).trans_lt hlen

end Supply

/-! ## The heap's own pages -/

section HeapWalk

variable (init : Entry → Entry) {b n : Nat} (h : Sound w R S) (hb : b < 2 ^ 16) (hn : n < 2)
include hb hn

theorem heapWalk_of_some {t : Nat} (ht : follow w.tables w.kernel.root (region b) = some t) :
    getEntryCreate takePool init 0 3 w w.kernel.root (heapPage b n)
      = some (w, t, index 0 (heapPage b n)) := by
  have hf : follow w.tables w.kernel.root (pathTo (0 + 0) 3 (heapPage b n)) = some t := by
    rw [← ht, ← path_heapPage hb hn]
    rfl
  exact getEntryCreate_follow hf

include h

/-- Where the table is missing, the one above it is there. -/
theorem heapWalk_of_none (hnone : follow w.tables w.kernel.root (region b) = none) :
    ∃ node, w.tables S = some node ∧ node.next (256 + b / 256) = none ∧
      getEntryCreate takePool init 0 3 w w.kernel.root (heapPage b n)
        = (takePool w).bind fun x => some (x.1.link S (256 + b / 256) x.2.1
            (init ((node.entries (256 + b / 256)).present x.2.2)), x.2.1,
              index 0 (heapPage b n)) := by
  have hpath := path_heapPage hb hn
  simp only [path, region, List.cons.injEq] at hpath
  obtain ⟨h3, h2, h1⟩ := hpath
  have hS := h.rootShares h.kernel
  obtain ⟨node, hnode⟩ := isSome_iff_exists.mp (h.live h.kernel hS)
  have hnext : node.next (256 + b / 256) = none := by
    rw [← follow_snoc hS hnode]
    exact hnone
  refine ⟨node, hnode, hnext, ?_⟩
  have hf : follow w.tables w.kernel.root (pathTo (0 + 1) 2 (heapPage b n)) = some S := by
    rw [← hS]
    show follow _ _ [index 3 (heapPage b n), index 2 (heapPage b n)] = _
    rw [h3, h2]
  have hp : (node.entries (256 + b / 256)).p = false :=
    h.absent h.kernel hS hnode (by decide) hnext
  rw [getEntryCreate_follow hf, getEntryCreate]
  simp only [h1, hnode, hnext, assert_pos hp, bind_eq_bind, bind_some]
  cases ha : takePool w with
  | none => rfl
  | some x =>
    obtain ⟨w₁, u, phys⟩ := x
    obtain ⟨pool, hpool, rfl⟩ := takePool_cases ha
    have hne : S ≠ u := by
      rintro rfl
      have hnone := (h.poolBlock (by rw [hpool]; exact mem_cons_self)).2
      rw [hnode] at hnone
      cases hnone
    have hT : setNext (update w.tables u (some (Node.blank Entry.zero))) S (256 + b / 256) u S
        = some { node with next := update node.next (256 + b / 256) (some u) } :=
      setNext_self (by rw [update_of_ne hne, hnode])
    simp only [bind_some, hT]
    rfl

end HeapWalk

/-- Whether the table for a block's pages is there. -/
def Prepared (w : World) (b : Nat) : Prop := (follow w.tables w.kernel.root (region b)).isSome

instance (w : World) (b : Nat) : Decidable (Prepared w b) :=
  inferInstanceAs (Decidable (_ = true))

theorem prepared_region {b b' : Nat} (h : Prepared w b) (hb : b' / 256 = b / 256) :
    Prepared w b' := by
  rw [Prepared, region] at h ⊢
  rw [hb]
  exact h

theorem Extends.prepared (h : Extends R w w') (hb : Prepared w b) : Prepared w' b := by
  obtain ⟨t, ht⟩ := isSome_iff_exists.mp hb
  rw [Prepared, h.kernel, h.follow_eq ht]
  rfl

theorem prepared_setEntry : Prepared (w.setEntry t i e) b ↔ Prepared w b :=
  iff_of_eq (congrArg (fun x => Option.isSome x = true) follow_setEntry)

/-- The table that a slot of a table leads to. -/
def slot (w : World) (t i : Nat) : Option Nat := (w.tables t).bind fun n => n.next i

theorem slot_setEntry : slot (w.setEntry t i e) t' j = slot w t' j := by
  by_cases ht : t' = t
  · subst ht
    rw [slot, slot, setEntry_tables, Radix.setEntry, update_self]
    cases w.tables t' <;> rfl
  · rw [slot, setEntry_tables, setEntry_of_ne ht]
    rfl

theorem slot_link (hu : Fresh w u) (ht : (w.tables t).isSome)
    (hne : ¬ (t' = t ∧ j = i)) : slot (w.link t i u e) t' j = slot w t' j := by
  obtain ⟨n, hn⟩ := isSome_iff_exists.mp ht
  have hut := (hu.ne ht).symm
  rw [slot, slot]
  by_cases htt : t' = t
  · subst htt
    have hji : j ≠ i := fun hji => hne ⟨rfl, hji⟩
    rw [link_at hut hn, hn]
    exact update_of_ne hji ..
  · by_cases htu : t' = u
    · rw [htu, link_new hut, hu.noTable]
      rfl
    · rw [link_of_ne htt htu]

/-- What a page of the heap costs: a table out of the pool, if there is none. -/
structure Costs (S : Nat) (w w' : World) (b : Nat) : Prop where
  prepared : Prepared w' b
  pool : w'.heap.pool = if Prepared w b then w.heap.pool else w.heap.pool.tail
  stocked : Prepared w b ∨ w.heap.pool ≠ []
  slots : ∀ {t i}, ¬ (t = S ∧ i = 256 + b / 256) → slot w' t i = slot w t i
  count : w'.heap.usedBlockCount = w.heap.usedBlockCount
  frames : ∀ {P k}, Supply P (k + 1) w.frames → Supply P k w'.frames

section MapHeapPage

variable {b n : Nat} (h : Sound w R S) (hb : b < 2 ^ 16) (hn : n < 2)
include h hb hn

theorem mapHeapPage_costs {phys : Nat} (hm : mapHeapPage w (heapPage b n) = some (w', phys)) :
    Costs S w w' b := by
  obtain ⟨frames, f, hframe, -, -, hraw⟩ := mapHeapPage_cases hm
  obtain ⟨-, w₁, t, i, e, hwalk, -, -, rfl⟩ := mapPageToRaw_cases hraw
  have hsupply : ∀ {P k}, Supply P (k + 1) w.frames → Supply P k frames :=
    fun hs => (hs.next hframe).2
  have h0 : Sound { w with frames := frames } R S := h.withFrames frames
  cases hf : follow w.tables w.kernel.root (region b) with
  | some t' =>
    have hprep : Prepared w b := by
      rw [Prepared, hf]
      rfl
    have hwalk' := heapWalk_of_some (setAttributes 0x3) (w := { w with frames := frames })
      hb hn hf
    obtain ⟨rfl, -⟩ := Prod.mk.inj (mem_unique hwalk hwalk')
    refine ⟨prepared_setEntry.mpr hprep, ?_, .inl hprep, fun _ => slot_setEntry, rfl, hsupply⟩
    rw [if_pos hprep]
    rfl
  | none =>
    have hprep : ¬ Prepared w b := by
      rw [Prepared, hf]
      exact Bool.noConfusion
    obtain ⟨node, hnode, -, hwalk'⟩ := heapWalk_of_none (setAttributes 0x3) h0 hb hn hf
    rw [hwalk'] at hwalk
    obtain ⟨⟨x, u, phys⟩, htake, hwalk⟩ := of_bind hwalk
    obtain ⟨rfl, -⟩ := Prod.mk.inj (Option.some.inj hwalk)
    obtain ⟨h1, hu, -⟩ := takePool_spec h0 htake
    obtain ⟨pool, hpool, rfl⟩ := takePool_cases htake
    have hpool' : w.heap.pool = (u, phys) :: pool := hpool
    refine ⟨prepared_setEntry.mpr ?_, ?_, .inr (by rw [hpool']; exact List.cons_ne_nil _ _),
      fun hne => slot_setEntry.trans (slot_link hu (by rw [hnode]; rfl) hne), rfl, hsupply⟩
    · have hS := h1.rootShares h1.kernel
      have hlink := follow_link_via (i := 256 + b / 256) []
        (e := setAttributes 0x3 ((node.entries (256 + b / 256)).present phys)) h1 hu
        (h1.live h1.kernel hS) h1.kernel hS
      exact (congrArg Option.isSome hlink).trans rfl
    · rw [if_neg hprep, hpool']
      rfl

/-- The heap can map a page that is not mapped, if there is a table for it. -/
theorem mapHeapPage_total {frames : List Bool} {f : Nat}
    (hp : (pte w w.kernel.root (heapPage b n)).p = false)
    (hfree : getFreePage w.frames = some (frames, f)) (hf : f ≠ INVALID_PAGE)
    (htab : Prepared w b ∨ w.heap.pool ≠ []) :
    ∃ w' phys, mapHeapPage w (heapPage b n) = some (w', phys) := by
  have h0 : Sound { w with frames := frames } R S := h.withFrames frames
  -- the walk ends somewhere, and what it finds there is what was there before
  obtain ⟨w₁, t, hwalk, h1, hft, hp1⟩ : ∃ w₁ t,
      getEntryCreate takePool (setAttributes 0x3) 0 3 { w with frames := frames } w.kernel.root
        (heapPage b n) = some (w₁, t, index 0 (heapPage b n)) ∧ Sound w₁ R S ∧
      follow w₁.tables w.kernel.root (path (heapPage b n)) = some t ∧
      (pte w₁ w.kernel.root (heapPage b n)).p = false := by
    have hspec : ∀ {w₁ t i}, getEntryCreate takePool (setAttributes 0x3) 0 3
        { w with frames := frames } w.kernel.root (heapPage b n) = some (w₁, t, i) → Sound w₁ R S ∧
        follow w₁.tables w.kernel.root (path (heapPage b n)) = some t ∧
        (pte w₁ w.kernel.root (heapPage b n)).p = false := by
      intro w₁ t i hwalk
      obtain ⟨h1, -, hQ, hft, -⟩ := getEntryCreate_spec (P := fun _ _ => True) Nested.refl Nested.trans
        (takePool_creates _) h0 h.kernel (q := []) rfl le_rfl (fun _ => trivial) hwalk
      refine ⟨h1, hft, ?_⟩
      rw [hQ.view _ h.kernel]
      exact hp
    cases hf : follow w.tables w.kernel.root (region b) with
    | some t =>
      have hwalk := heapWalk_of_some (setAttributes 0x3)
        (w := { w with frames := frames }) hb hn hf
      exact ⟨_, t, hwalk, hspec hwalk⟩
    | none =>
      obtain ⟨node, -, -, hwalk⟩ := heapWalk_of_none (setAttributes 0x3) h0 hb hn hf
      have hpool : w.heap.pool ≠ [] := by
        rcases htab with hprep | hpool
        · rw [Prepared, hf] at hprep
          cases hprep
        · exact hpool
      obtain ⟨x, rest, hcons⟩ := List.exists_cons_of_ne_nil hpool
      have htake : takePool { w with frames := frames } = some ({ w with
          frames := frames, heap := { w.heap with pool := rest } }, x.1, x.2) := by
        simp only [takePool, hcons]
      rw [htake] at hwalk
      exact ⟨_, _, hwalk, hspec hwalk⟩
  have hentry := h1.entry_eq h.kernel hft
  have hhigh := heapPage_high hb hn
  have haccept : Accepts (heapPage b n) (ATTR_RW + ATTR_NOEXEC) :=
    ⟨fun hc => absurd hc.1 (by omega), fun hc => absurd hc.2 (by decide), by decide⟩
  rw [mapHeapPage, mapPageBy, hfree]
  simp only [bind_eq_bind, bind_some]
  rw [assert_pos hf, mapPageToRaw_eq _ haccept hwalk hentry hp1]
  exact ⟨_, _, rfl⟩

end MapHeapPage

/-! ## Allocation -/

theorem count_take (map : List Bool) :
    ((withRoom map).set (nextFree map) true).count true = map.count true + 1 := by
  obtain ⟨-, hfree, -, -⟩ := nextFree_spec map
  have hlt := getElem?_lt hfree
  have hbit : (withRoom map)[nextFree map] = false := by
    rw [List.getElem?_eq_getElem hlt] at hfree
    exact Option.some.inj hfree
  have hroom : (withRoom map).count true = map.count true := by
    rw [withRoom]
    split
    · rfl
    · simp
  rw [List.count_set hlt, hroom]
  simp [hbit]

theorem count_clear {map : List Bool} (hb : map[b]? = some true) :
    (map.set b false).count true = map.count true - 1 := by
  have hlt := getElem?_lt hb
  have hbit : map[b] = true := by
    rw [List.getElem?_eq_getElem hlt] at hb
    exact Option.some.inj hb
  rw [List.count_set hlt]
  simp [hbit]

/-- What an allocation takes, and what it leaves. -/
structure Took (R : Nat → Prop) (S : Nat) (w w₁ : World) (u phys : Nat) : Prop where
  alloc : Allocated R S w w₁ u
  free : w.heap.map[u]? ≠ some true
  below : u ≤ w.heap.map.length
  map : ∀ b : Nat, w₁.heap.map[b]? = some true ↔ w.heap.map[b]? = some true ∨ b = u
  length : w₁.heap.map.length = max w.heap.map.length (u + 1)
  bits : w₁.heap.map = w.roomy.set u true
  count : w₁.heap.usedBlockCount = w.heap.usedBlockCount + 1
  pool : w₁.heap.pool = if u < 16 ∨ Prepared w u then w.heap.pool else w.heap.pool.tail
  stocked : u < 16 ∨ Prepared w u ∨ w.heap.pool ≠ []
  frames : ∀ {P k}, Supply P (k + 2) w.frames → Supply P k w₁.frames
  slots : ∀ {t i}, ¬ (t = S ∧ i = 256 + u / 256) → slot w₁ t i = slot w t i
  prepared : 16 ≤ u → Prepared w₁ u
  static : u < 16 → phys = w.pageHeapStart + u * PAGE_SIZE * 2 ∧
    ∀ {r} (v : VAddr), R r → pte w₁ r v = pte w r v
  /-- Each page is on a frame that was free, and `phys` is where the first one is. -/
  pages : 16 ≤ u → ∃ f : Nat → Nat, phys = f 0 * PAGE_SIZE ∧
    (∀ n < 2, ¬ Used w.frames (f n) ∧ Used w₁.frames (f n)) ∧
    (∀ n < 2, (pte w w.kernel.root (heapPage u n)).p = false) ∧
    (∀ n < 2, ∀ {r} (v : VAddr), R r → slotOf r v = slotOf w.kernel.root (heapPage u n) →
      pte w₁ r v = setAttributes 5 ((pte w w.kernel.root (heapPage u n)).present
        (f n * PAGE_SIZE))) ∧
    ∀ {r} (v : VAddr), R r → (∀ n < 2, slotOf r v ≠ slotOf w.kernel.root (heapPage u n)) →
      pte w₁ r v = pte w r v

theorem nextBlock_free (w : World) : w.heap.map[w.nextBlock]? ≠ some true :=
  nextFree_unused w.heap.map

/-- The block is marked, of which the tables know nothing. -/
def World.marked (w : World) : World :=
  World.reserved { w with heap := { w.heap with map := w.roomy } } w.nextBlock

theorem World.marked_map (w : World) (b : Nat) :
    w.marked.heap.map[b]? = some true ↔ w.heap.map[b]? = some true ∨ b = w.nextBlock :=
  used_take w.heap.map b

theorem Sound.marked (h : Sound w R S) : Sound w.marked R S :=
  h.of_tables rfl rfl rfl fun b hb => (w.marked_map b).mpr (.inl hb)

section AllocBlock

variable (h : Sound w R S) (hidle : w.heap.allocating = false) (hroom : w.nextBlock < 2 ^ 16)
include h hidle hroom

/-- What an allocation takes. -/
theorem allocBlock_took {u phys : Nat} (ha : allocBlock w = some (w₁, u, phys)) :
    u = w.nextBlock ∧ Took R S w w₁ u phys := by
  have halloc := allocBlock_spec h ha
  obtain ⟨hle, hfree, hlen, hmap⟩ := nextBlock_spec w
  have hlen0 : w.marked.heap.map.length = max w.heap.map.length (w.nextBlock + 1) :=
    List.length_set.trans hlen
  rw [allocBlock_eq hidle] at ha
  obtain ⟨-, rfl, hcases⟩ := allocPage_cases ha
  have h0 := h.marked
  have hpte0 : ∀ r v, pte w.marked r v = pte w r v := fun _ _ => rfl
  have hk0 : w.marked.kernel = w.kernel := rfl
  rcases hcases with ⟨hdyn, w2, w3, phys3, hm2, hm3, rfl⟩ | ⟨hstatic, rfl, rfl⟩
  · replace hm2 : mapHeapPage w.marked (heapPage w.nextBlock 0) = some (w2, phys) := hm2
    obtain ⟨-, f0, hphys, -, h2, hext2, hfr2, hmapEq2, -, -, -, -⟩ := mapHeapPage_spec h0 hm2
    obtain ⟨-, f1, -, -, h3, hext3, hfr3, hmapEq3, -, -, -, -⟩ := mapHeapPage_spec h2 hm3
    have hc2 := mapHeapPage_costs h0 hroom (by omega) hm2
    have hc3 := mapHeapPage_costs h2 hroom (by omega) hm3
    have hk2 : w2.kernel = w.kernel := hext2.kernel.trans hk0
    have hslots : ∀ r, slotOf r (heapPage w.nextBlock 1) ≠ slotOf r (heapPage w.nextBlock 0) :=
      fun r hs => absurd (slotOf_heapPage hroom hroom (by omega) (by omega) hs).2 (by omega)
    have hkr : R w.kernel.root := h.kernel
    refine ⟨rfl, halloc, nextBlock_free w, hle, fun b => ?_, ?_, hmapEq3.trans hmapEq2, ?_, ?_,
      .inr hc2.stocked, fun hs => hc3.frames (hc2.frames hs),
      fun hne => (hc3.slots hne).trans (hc2.slots hne), fun _ => hc3.prepared, fun hc => ?_,
      fun _ => ?_⟩
    · show w3.heap.map[b]? = some true ↔ _
      rw [hmapEq3, hmapEq2, w.marked_map]
    · show w3.heap.map.length = _
      rw [hmapEq3, hmapEq2, hlen0]
    · show w3.heap.usedBlockCount + 1 = _
      rw [hc3.count, hc2.count]
      rfl
    · show w3.heap.pool = _
      rw [hc3.pool, if_pos hc2.prepared, hc2.pool]
      exact if_congr (or_iff_right (by omega)).symm rfl rfl
    · omega
    · -- the second page is not where the first one is
      have hwas : pte w2 w.kernel.root (heapPage w.nextBlock 1)
          = pte w w.kernel.root (heapPage w.nextBlock 1) := by
        rw [hfr2.view _ hkr, hk0, if_neg (hslots _), hpte0]
      have hview2 := fun {r} (v : VAddr) (hr : R r) => hfr2.view v hr
      have hview3 := fun {r} (v : VAddr) (hr : R r) => hfr3.view v hr
      have hwas2 := hfr2.was
      have hwas3 := hfr3.was
      simp only [hk0, hpte0] at hview2 hwas2
      rw [hk2, hwas] at hwas3
      simp only [hk2, hwas] at hview3
      refine ⟨fun n => if n = 0 then f0 else f1, ?_, ?_, ?_, ?_, ?_⟩
      · rw [hphys]
        rfl
      · intro n hn
        obtain ⟨hfree2, hused2⟩ := getFreePage_spec hfr2.frame
        obtain ⟨hfree3, hused3⟩ := getFreePage_spec hfr3.frame
        rcases (by omega : n = 0 ∨ n = 1) with rfl | rfl
        · exact ⟨hfree2, (hused3 f0).mpr (.inl ((hused2 f0).mpr (.inr rfl)))⟩
        · exact ⟨fun hc => hfree3 ((hused2 f1).mpr (.inl hc)), (hused3 f1).mpr (.inr rfl)⟩
      · intro n hn
        rcases (by omega : n = 0 ∨ n = 1) with rfl | rfl
        · exact hwas2
        · exact hwas3
      · intro n hn r v hr hs
        show pte w3 r v = _
        rw [hview3 v hr]
        rcases (by omega : n = 0 ∨ n = 1) with rfl | rfl
        · rw [hs, if_neg (hslots _).symm, hview2 v hr, if_pos hs]
          rfl
        · rw [if_pos hs]
          rfl
      · intro r v hr hne
        show pte w3 r v = _
        rw [hview3 v hr, if_neg (hne 1 (by omega)), hview2 v hr, if_neg (hne 0 (by omega))]
  · exact ⟨rfl, halloc, nextBlock_free w, hle, w.marked_map, hlen0, rfl, rfl,
      (if_pos (.inl hstatic)).symm, .inl hstatic, fun hs => hs.mono (by omega), fun _ => rfl,
      fun hc => absurd hc (by omega), fun _ => ⟨rfl, fun _ _ => rfl⟩,
      fun hc => absurd hc (by omega)⟩

end AllocBlock

/-! ## When there is something to allocate -/

/-- The heap between two calls. Of the blocks below `N` those that are not taken are not mapped. -/
structure Ready (R : Nat → Prop) (S N : Nat) (w : World) : Prop where
  sound : Sound w R S
  idle : w.heap.allocating = false
  first : Prepared w 0
  prepared : ∀ {b}, b < w.heap.map.length → Prepared w b
  vacant : ∀ {b n}, 16 ≤ b → b < N → n < 2 → w.heap.map[b]? ≠ some true →
    (pte w w.kernel.root (heapPage b n)).p = false

section Ready

variable {N : Nat} (h : Ready R S N w) (hN : N ≤ 2 ^ 16)
include h

theorem Ready.prepared_of_lt {b : Nat} (hb : b < 256) : Prepared w b :=
  prepared_region h.first (by omega)

include hN

/-- There is a block, if there is an address for it and its table is there or in the pool. -/
theorem Ready.allocBlock_total (hnext : w.nextBlock < N)
    (hframes : Supply Named 2 w.frames) (hpool : Prepared w w.nextBlock ∨ w.heap.pool ≠ []) :
    ∃ w₁ u phys, allocBlock w = some (w₁, u, phys) := by
  obtain ⟨l, f, hl, hf, l', f', hl', hf', -⟩ := hframes
  obtain ⟨-, hfree, -, -⟩ := nextBlock_spec w
  have hroom : w.nextBlock < 2 ^ 16 := hnext.trans_le hN
  rw [allocBlock_eq h.idle]
  unfold allocPage
  rw [assert_pos hfree]
  have h0 := h.sound.marked
  split
  · rename_i hdyn
    have e0 : pageToPtr w.nextBlock = heapPage w.nextBlock 0 := by simp [heapPage]
    have e1 : pageToPtr w.nextBlock + 0x1000 = heapPage w.nextBlock 1 := rfl
    have hvacant : ∀ n < 2, (pte w w.kernel.root (heapPage w.nextBlock n)).p = false :=
      fun n hn => h.vacant (by omega) hnext hn (nextBlock_free w)
    obtain ⟨w2, phys2, hm2⟩ := mapHeapPage_total h0 hroom (by omega) (hvacant 0 (by omega)) hl hf
      hpool
    have hc2 := mapHeapPage_costs h0 hroom (by omega) hm2
    obtain ⟨-, f0, -, -, h2, hext2, hfr2, -⟩ := mapHeapPage_spec h0 hm2
    have hframes2 : w2.frames = l :=
      congrArg Prod.fst (mem_unique hfr2.frame hl)
    rw [← hframes2] at hl'
    have hvacant2 : (pte w2 w2.kernel.root (heapPage w.nextBlock 1)).p = false := by
      rw [hext2.kernel, hfr2.view _ h0.kernel, if_neg]
      · exact hvacant 1 (by omega)
      · exact fun hs => absurd (slotOf_heapPage hroom hroom (by omega) (by omega) hs).2 (by omega)
    obtain ⟨w3, phys3, hm3⟩ := mapHeapPage_total h2 hroom (by omega) hvacant2 hl' hf'
      (.inl hc2.prepared)
    rw [← e0, World.marked, World.reserved] at hm2
    rw [← e1] at hm3
    simp only [hm2, hm3, bind_eq_bind, bind_some]
    exact ⟨_, _, _, rfl⟩
  · exact ⟨_, _, _, rfl⟩

theorem Took.ready {u phys : Nat} (ht : Took R S w w₁ u phys) (hu : u < 2 ^ 16) :
    Ready R S N w₁ := by
  have hk : w₁.kernel = w.kernel := ht.alloc.ext.kernel
  refine ⟨ht.alloc.sound, ht.alloc.grown.allocating.trans h.idle, ht.alloc.ext.prepared h.first,
    fun {b} hb => ?_, fun {b n} hb hbN hn hmap => ?_⟩
  · have hbelow := ht.below
    rw [ht.length] at hb
    rcases (by omega : b < w.heap.map.length ∨ b = u) with hlt | rfl
    · exact ht.alloc.ext.prepared (h.prepared hlt)
    · rcases Nat.lt_or_ge b 16 with hlt | hge
      · exact ht.alloc.ext.prepared (h.prepared_of_lt (by omega))
      · exact ht.prepared hge
  · obtain ⟨hold, hne⟩ := not_or.mp ((not_congr (ht.map b)).mp hmap)
    have hsame : pte w₁ w₁.kernel.root (heapPage b n) = pte w w.kernel.root (heapPage b n) := by
      rw [hk]
      rcases Nat.lt_or_ge u 16 with hlt | hge
      · exact (ht.static hlt).2 _ h.sound.kernel
      · obtain ⟨f, -, -, -, -, hother⟩ := ht.pages hge
        refine hother _ h.sound.kernel fun n' hn' hs => hne ?_
        exact (slotOf_heapPage (hbN.trans_le hN) hu hn hn' hs).1
    rw [hsame]
    exact h.vacant hb hbN hn hold

end Ready

theorem prepared_link (h : Sound w R S) (hu : Fresh w u)
    (ht : (w.tables t).isSome) (hlink : Sound (w.link t i u e) R S) (hb : Prepared w b) :
    Prepared (w.link t i u e) b := by
  have hk : R w.kernel.root := h.kernel
  by_cases hvia : Via w.tables t i w.kernel.root (region b)
  · obtain ⟨q, rest, hq, hf⟩ := hvia
    have hend := follow_link_via (i := i) (e := e) rest h hu ht hk hf
    rcases rest with _ | ⟨j, rest⟩
    · rw [Prepared, hq]
      exact (congrArg Option.isSome hend).trans rfl
    · -- the slot would be on the way to the shared table
      obtain ⟨rest', hq'⟩ : ∃ rest', [511, 511] = q ++ i :: rest' := by
        refine ⟨(j :: rest).dropLast, ?_⟩
        have hlast := congrArg List.dropLast hq
        rw [List.dropLast_append_of_ne_nil (List.cons_ne_nil i _)] at hlast
        exact hlast
      have hS := hlink.rootShares hk
      rw [hq', follow_link_via _ h hu ht hk hf] at hS
      obtain ⟨-, hS⟩ := Option.ite_none_right_eq_some.mp hS
      exact absurd (Option.some.inj hS).symm (hu.ne (h.live hk (h.rootShares hk)))
  · rw [Prepared]
    exact (congrArg Option.isSome (follow_link_of_not_via hu.noTable hvia)).trans hb

theorem Ready.link {N : Nat} (h : Ready R S N w) (hu : Fresh w u)
    (ht : (w.tables t).isSome) (hlink : Sound (w.link t i u e) R S)
    (hview : ∀ {r} (v : VAddr), R r →
      pte (w.link t i u e) r v = pte w r v ∨ pte (w.link t i u e) r v = .zero) :
    Ready R S N (w.link t i u e) := by
  refine ⟨hlink, h.idle, prepared_link h.sound hu ht hlink h.first,
    fun hb => prepared_link h.sound hu ht hlink (h.prepared hb), fun {b n} hb hbN hn hmap => ?_⟩
  rcases hview (heapPage b n) h.sound.kernel with hv | hv
  · exact (congrArg Entry.p hv).trans (h.vacant hb hbN hn hmap)
  · exact congrArg Entry.p hv

theorem Ready.push {N phys : Nat} (h : Ready R S N w) (hu : Fresh w u) :
    Ready R S N { w with heap := { w.heap with pool := (u, phys) :: w.heap.pool } } :=
  { h with sound := h.sound.push hu }

/-- The heap of the small kernel is where it should be. -/
theorem smallKernel_heapPage (hb : b < 20) (hn : n < 2) :
    pte smallKernel 0 (heapPage b n) = ⟨true, true, false, true, 8 + (2 * b + n)⟩ := by
  have hpath : path (heapPage b n) = [511, 511, 256] := by
    rw [path_heapPage (by omega) hn, region, show 256 + b / 256 = 256 by omega]
  have hindex : index 0 (heapPage b n) = 2 * b + n := by
    rw [index, heapPage_toNat (by omega) hn]
    omega
  have hf : follow smallKernel.tables 0 (path (heapPage b n)) = some 3 := by
    rw [hpath]
    rfl
  rw [pte_of_follow hf rfl, hindex]
  exact if_pos (by omega)

end Flix.Paging

import Flix.Memory.KHeapGrowth

/-!
# What requests get

Sizes are 32 bits wide. `malloc` cuts what it is asked for to that width, and
`kmalloc` adds the header and rounds up in it, so that a request for more than
there can be may be answered with a few bytes.

The search takes only blocks that are larger than the request. One of exactly the
size is passed over, so that a block that is freed is not found again by a request
for the same size.
-/

namespace Flix.KHeap

open Bytes Tiling Runs

variable {pages : Mem} {h h' : Heap} {bs : List Nat} {size : Nat}

/-! ## What `malloc` returns -/

/-- The pointer leads to a block of the heap with room for the bytes. -/
structure Holds (h : Heap) (p size : Nat) : Prop where
  block : ∃ bs, Tiled h bs ∧ blockOf p ∈ bs
  room : p + size ≤ payloadEnd h p
  inside : h.heapStart ≤ p ∧ payloadEnd h p ≤ h.heapEnd

/-- It returns, and a null pointer or what was asked for. -/
def MallocOk (pages : Mem) (h : Heap) (size : Nat) : Prop :=
  ∃ h' p, malloc pages h size = some (h', p) ∧ (p = 0 ∨ Holds h' p size)

/-- A free block is larger than the request, or the heap can grow for it. Should the page that
becomes a block read as used, it has to be taken whole. -/
def Serves (pages : Mem) (h : Heap) (bs : List Nat) (size : Nat) : Prop :=
  (∃ b ∈ bs, Fits h.mem (exactRequest size) b) ∨
    CanGrow h (exactRequest size) ∧
      (getUsed h.mem h.lastBlock = true → getUsed pages h.heapEnd = false ∨
        PAGE_SIZE < exactRequest size + BLOCK_MIN_SIZE ∧ exactRequest size ≤ PAGE_SIZE)

theorem Serves.exactRequest_lt (hs : Serves pages h bs size) : exactRequest size < 2 ^ 32 := by
  rcases hs with ⟨b, -, -, hlt⟩ | ⟨hgrow, -⟩
  · exact hlt.trans (getSize_lt _ _)
  · exact hgrow.exactRequest_lt

theorem enlarge_whole_page (ht : Tiled h bs) (hu : getUsed h.mem h.lastBlock = true)
    (hgrow : CanGrow h size) (hlo : PAGE_SIZE < size + BLOCK_MIN_SIZE) (hhi : size ≤ PAGE_SIZE) :
    ∃ h' bs' b, allocFrom pages h size (.exhausted h.lastBlock) = some (h', getData b) ∧
      Tiled h' bs' ∧ b ∈ bs' ∧ size ≤ getSize h'.mem b := by
  have hlo : 0x1000 < size + 8 := hlo
  have hhi : size ≤ 0x1000 := hhi
  have hs : spare h = 0 := if_pos hu
  have hone : missingPages h size = 1 := by
    unfold missingPages
    omega
  have hneeded := hgrow.neededPages_eq (by omega)
  have hend := hgrow.2
  rw [hone] at hneeded hend
  obtain ⟨h1, e1, ht1, -, hend1, hl1, -, -⟩ := enlargeStep_new pages ht hu (by omega)
  have hsize : getSize h1.mem h1.lastBlock = 0x1000 := by
    have hstop := ht1.last_end
    unfold PAGE_SIZE at hend1
    omega
  have hcut : ¬ size ≤ sub32 (getSize h1.mem h1.lastBlock) BLOCK_MIN_SIZE := by
    rw [hsize]
    show ¬ size ≤ 0xff8
    omega
  have ht2 := ht1.setUsed ht1.last_mem true
  refine ⟨_, _, h1.lastBlock, ?_, ht2, ht1.last_mem, ?_⟩
  · have henlarge : enlargeHeap pages h 1 = some h1 := by
      simp only [enlargeHeap, enlargeLoop, e1, assert_pos ht1.last_end, bind_eq_bind,
        bind_some]
    rw [allocFrom, assert_pos rfl, hneeded]
    simp only [henlarge, bind_eq_bind, bind_some]
    unfold takeLast
    have hroom : size ≤ getSize h1.mem h1.lastBlock := by omega
    simp only [assert_pos hroom, if_neg hcut, getSize_setUsed, assert_pos ht1.last_end,
      bind_eq_bind, bind_some]
  · rw [getSize_setUsed, hsize]
    omega

theorem kmalloc_of_serves (ht : Tiled h bs) (h0 : size ≠ 0) (hs : Serves pages h bs size) :
    ∃ h' bs' b, kmalloc pages h size = some (h', getData b) ∧ Tiled h' bs' ∧ b ∈ bs' ∧
      exactRequest size ≤ getSize h'.mem b := by
  obtain ⟨halign, hmin⟩ := exactRequest_min h0
  unfold kmalloc
  rw [if_neg h0, roundRequest_eq hs.exactRequest_lt]
  rcases searchAll_spec (exactRequest size) ht with
    ⟨front, b, back, hbs, -, hfit, hsearch⟩ | ⟨hno, hsearch⟩
  · obtain ⟨h', bs', e, ha⟩ := allocFrom_at pages ht (b := b) (by rw [hbs]; simp) hfit halign hmin
    exact ⟨h', bs', b, by rw [hsearch, bind_some, e], ha.tiled, ha.mem, ha.room⟩
  · rw [hsearch]
    rcases hs with ⟨b, hb, hfit⟩ | ⟨hgrow, hpage⟩
    · exact absurd hfit (hno b hb)
    by_cases hclean : getUsed h.mem h.lastBlock = true → getUsed pages h.heapEnd = false
    · obtain ⟨h', bs', b, e, ha⟩ := allocFrom_exhausted ht halign hmin (hno _ ht.last_mem) hclean
        hgrow
      exact ⟨h', bs', b, e, ha.tiled, ha.mem, ha.room⟩
    · simp only [Classical.not_imp] at hclean
      obtain ⟨hu, hdirty⟩ := hclean
      obtain ⟨hlo, hhi⟩ := (hpage hu).resolve_left hdirty
      exact enlarge_whole_page ht hu hgrow hlo hhi

theorem serves_of_kmalloc {p : Nat} (ht : Tiled h bs) (hp : Placed h) (h0 : size ≠ 0)
    (hk : kmalloc pages h size = some (h', p)) (hlt : exactRequest size < 2 ^ 32) :
    Serves pages h bs size := by
  obtain ⟨-, hmin⟩ := exactRequest_min h0
  have hmin : 8 ≤ exactRequest size := hmin
  have hcases := kmalloc_cases ht h0 hk
  rw [roundRequest_eq hlt] at hcases
  rcases hcases with ⟨front, b, back, hbs, -, hfit, -⟩ | ⟨hno, h1, he, htake⟩
  · exact .inl ⟨b, by rw [hbs]; simp, hfit⟩
  · obtain ⟨-, hroom, -, -, hcut, -⟩ := takeLast_cases htake
    have hspare := spare_le (hno _ ht.last_mem)
    have hn : getUsed h.mem h.lastBlock = true →
        neededPages h.mem h.lastBlock (exactRequest size) ≠ 0 := by
      intro hu hzero
      have hs : spare h = 0 := if_pos hu
      have hsmall := hp.getSize_le ht ht.last_mem
      have hneeded := neededPages_eq hlt hspare
      rw [hzero] at he hneeded
      obtain rfl := Option.some.inj (enlargeHeap_loop he).1
      unfold missingPages at hneeded
      split at hneeded <;> omega
    obtain ⟨hgrow, hpage⟩ := enlargeHeap_room ht hp.stop hlt hspare hn he hroom
    refine .inr ⟨hgrow, fun hu => (hpage hu).imp_right ?_⟩
    rintro ⟨hused, hwhole⟩
    rw [hwhole] at hroom hcut
    refine ⟨?_, hroom⟩
    -- a block in use is not cut
    by_contra hlo
    rw [hcut] at hused
    · cases hused
    · show exactRequest size ≤ 0xff8
      have hlo : ¬ 0x1000 < exactRequest size + 8 := hlo
      omega

/-- `kmalloc` returns no null pointer for another size than zero. -/
theorem kmalloc_data {p : Nat} (ht : Tiled h bs) (h0 : size ≠ 0)
    (hk : kmalloc pages h size = some (h', p)) : ∃ b, p = getData b := by
  rcases kmalloc_cases ht h0 hk with ⟨-, b, -, -, -, -, hp, -⟩ | ⟨-, h1, -, htake⟩
  · exact ⟨b, hp⟩
  · exact ⟨h1.lastBlock, (takeLast_cases htake).1⟩

variable {b : Nat}

/-- A block with room for a size has it in 32 bits. -/
theorem Holds.exactRequest_lt (hh : Holds h (getData b) size) : exactRequest size < 2 ^ 32 := by
  have hroom := hh.room
  unfold payloadEnd at hroom
  rw [blockOf_getData] at hroom
  refine (exactRequest_le.mpr ?_).trans_lt (getSize_lt h.mem b)
  unfold getData at hroom
  omega

theorem mod_of_exactRequest_lt (hlt : exactRequest size < 2 ^ 32) : size % 2 ^ 32 = size := by
  unfold exactRequest HEADER_SIZE BLOCK_ALIGN at hlt
  omega

/-- **What `malloc` returns is large enough, as far as 32 bits go.** In every state of a run, for
every size: `malloc` returns a null pointer or a block with room for the size if and only if the
size is cut to zero, or a free block is larger than the size with its header, rounded up and not
cut, or the heap can grow for it. -/
theorem malloc_returns_enough {mem : Mem} {h₀ : Heap} {s : State} (hboot : BootFits mem)
    (hinit : init mem = some h₀) (hr : Reach step Admissible { heap := h₀, live := [] } s) :
    ∃ bs, HeapInv s bs ∧ ∀ pages size,
      MallocOk pages s.heap size ↔ size % 2 ^ 32 = 0 ∨ Serves pages s.heap bs size := by
  obtain ⟨⟨bs, hi⟩, hp⟩ := reach_placed hboot hinit hr
  have ht := hi.tiled
  refine ⟨bs, hi, fun pages size => ?_⟩
  constructor
  · rintro ⟨h', p, hm, hok⟩
    by_cases h0 : size % 2 ^ 32 = 0
    · exact .inl h0
    obtain ⟨b, rfl⟩ := kmalloc_data ht h0 hm
    have hholds := hok.resolve_left (Nat.succ_ne_zero _)
    have hlt := hholds.exactRequest_lt
    rw [malloc, mod_of_exactRequest_lt hlt] at hm
    rw [mod_of_exactRequest_lt hlt] at h0
    exact .inr (serves_of_kmalloc ht hp h0 hm hlt)
  · rintro (h0 | hs)
    · refine ⟨s.heap, 0, ?_, .inl rfl⟩
      rw [malloc, h0]
      rfl
    · by_cases h0 : size % 2 ^ 32 = 0
      · refine ⟨s.heap, 0, ?_, .inl rfl⟩
        rw [malloc, h0]
        rfl
      have hcut := mod_of_exactRequest_lt hs.exactRequest_lt
      rw [hcut] at h0
      obtain ⟨h', bs', b, hk, ht', hb, hroom⟩ := kmalloc_of_serves ht h0 hs
      have hbounds := ht'.tiles.mem_bounds hb
      have hroom := exactRequest_le.mp hroom
      refine ⟨h', getData b, by rw [malloc, hcut, hk], .inr ⟨⟨bs', ht', ?_⟩, ?_, ?_⟩⟩
      · rwa [blockOf_getData]
      · unfold payloadEnd
        rw [blockOf_getData]
        unfold getData
        omega
      · unfold payloadEnd
        rw [blockOf_getData]
        unfold getData
        omega

theorem malloc_returns_enough_bootImage : ∃ h₀, init bootImage = some h₀ ∧
    MallocOk (fun _ => 1) h₀ 1000 := by
  obtain ⟨h₀, -, hinit, -⟩ := init_spec (show BootFits bootImage by unfold BootFits; decide)
  obtain ⟨bs, hi, hiff⟩ := malloc_returns_enough (by unfold BootFits; decide) hinit .start
  refine ⟨h₀, hinit, (hiff _ _).mpr (.inr (.inl ⟨h₀.lastBlock, hi.tiled.last_mem, ?_⟩))⟩
  have hfacts : (init bootImage).map (fun h => (getUsed h.mem h.lastBlock,
      getSize h.mem h.lastBlock)) = some (false, 2097132) := by decide +kernel
  rw [hinit, map_some, Option.some.injEq] at hfacts
  obtain ⟨hfree, hsize⟩ := Prod.mk.inj hfacts
  refine ⟨hfree, ?_⟩
  rw [hsize]
  decide

/-- **A request for more than 4 GB gets 16 bytes.** -/
theorem malloc_cuts_size : ∃ h₀ h' p, init bootImage = some h₀ ∧
    malloc (fun _ => 0) h₀ (2 ^ 32 + 16) = some (h', p) ∧ p ≠ 0 ∧ payloadEnd h' p = p + 16 ∧
    ¬ MallocOk (fun _ => 0) h₀ (2 ^ 32 + 16) := by
  have hrun : (init bootImage).bind (fun h => (malloc (fun _ => 0) h (2 ^ 32 + 16)).map fun x =>
      (x.2, payloadEnd x.1 x.2)) = some (heapBase + 24, heapBase + 40) := by decide +kernel
  obtain ⟨h₀, hinit, hrun⟩ := bind_eq_some_iff.mp hrun
  obtain ⟨⟨h', p⟩, hm, hfacts⟩ := map_eq_some_iff.mp hrun
  obtain ⟨hp, hend⟩ := Prod.mk.inj hfacts
  have hp : p = heapBase + 24 := hp
  have hend : payloadEnd h' p = heapBase + 40 := hend
  refine ⟨h₀, h', p, hinit, hm, by rw [hp]; decide, by omega, ?_⟩
  rintro ⟨h₁, p₁, hm₁, hok⟩
  rw [hm] at hm₁
  cases hm₁
  rcases hok with h0 | hholds
  · rw [h0] at hp
    exact absurd hp (by decide)
  · have hroom := hholds.room
    omega

/-! ## Blocks that were freed -/

/-- The block is free and not smaller than the request. -/
def Enough (m : Mem) (size b : Nat) : Prop := getUsed m b = false ∧ exactRequest size ≤ getSize m b

/-- The first of the blocks that are enough. -/
structure FirstEnough (h : Heap) (bs : List Nat) (size b : Nat) : Prop where
  enough : Enough h.mem size b
  first : ∃ front back, bs = front ++ b :: back ∧ ∀ c ∈ front, ¬ Enough h.mem size c

theorem FirstEnough.mem (hb : FirstEnough h bs size b) : b ∈ bs := by
  obtain ⟨front, back, rfl, -⟩ := hb.first
  simp

/-- The request is served from the block, and the heap stays as long as it is. -/
def ServedFrom (pages : Mem) (h : Heap) (size b : Nat) : Prop :=
  ∃ h', kmalloc pages h size = some (h', getData b) ∧ h'.heapEnd = h.heapEnd

theorem Enough.exactRequest_lt (hb : Enough h.mem size b) : exactRequest size < 2 ^ 32 :=
  hb.2.trans_lt (getSize_lt _ _)

section FirstEnough

variable {b : Nat} (ht : Tiled h bs) (hb : FirstEnough h bs size b) (h0 : size ≠ 0)
include ht hb h0

theorem servedFrom_larger (hne : exactRequest size ≠ getSize h.mem b) :
    ServedFrom pages h size b := by
  obtain ⟨halign, hmin⟩ := exactRequest_min h0
  obtain ⟨hfree, hle⟩ := hb.enough
  have hfit : Fits h.mem (exactRequest size) b := ⟨hfree, by omega⟩
  obtain ⟨front, back, hbs, hfront⟩ := hb.first
  obtain ⟨h', bs', e, -⟩ := allocFrom_at pages ht hb.mem hfit halign hmin
  have hsearch : searchAll h (exactRequest size)
      = some (Search.at h.mem (exactRequest size) b) := by
    rcases searchAll_spec (exactRequest size) ht with
      ⟨front', c, back', hbs', hfront', hc, hs⟩ | ⟨hno, -⟩
    · -- both are the first that fits
      suffices hcb : c = b by rw [hs, hcb]
      rw [hbs] at hbs'
      rcases List.append_eq_append_iff.mp hbs' with ⟨l, rfl, hl⟩ | ⟨l, rfl, hl⟩
      · cases l with
        | nil => exact (List.cons.inj hl).1.symm
        | cons x l =>
          obtain ⟨rfl, -⟩ := List.cons.inj hl
          exact absurd hfit (hfront' b (by simp))
      · cases l with
        | nil => exact (List.cons.inj hl).1
        | cons x l =>
          obtain ⟨rfl, -⟩ := List.cons.inj hl
          exact absurd ⟨hc.1, hc.2.le⟩ (hfront c (by simp))
    · exact absurd hfit (hno b hb.mem)
  refine ⟨h', ?_, (allocFrom_at_cases e).2.1⟩
  unfold kmalloc
  rw [if_neg h0, roundRequest_eq hb.enough.exactRequest_lt, hsearch, bind_some, e]

/-- So is a last block of exactly the size: it is enlarged by no page. -/
theorem servedFrom_last (heq : exactRequest size = getSize h.mem b) (hlast : b = h.lastBlock) :
    ServedFrom pages h size b := by
  subst hlast
  obtain ⟨halign, hmin⟩ := exactRequest_min h0
  obtain ⟨hfree, hle⟩ := hb.enough
  obtain ⟨front, back, hbs, hfront⟩ := hb.first
  have hsearch : searchAll h (exactRequest size) = some (.exhausted h.lastBlock) := by
    rcases searchAll_spec (exactRequest size) ht with ⟨front', c, back', hbs', -, hc, -⟩ | ⟨-, hs⟩
    · have hmem : c ∈ bs := by rw [hbs']; simp
      have hle := ht.le_last hmem
      rw [hbs] at hmem
      rcases mem_append.mp hmem with hmem | hmem
      · exact absurd ⟨hc.1, hc.2.le⟩ (hfront c hmem)
      · rcases mem_cons.mp hmem with rfl | hmem
        · exact absurd hc.2 (by omega)
        · -- nothing is behind the last block
          subst hbs
          have hpair := ht.tiles.pairwise
          rw [List.pairwise_append, List.pairwise_cons] at hpair
          have hafter := hpair.2.1.1 c hmem
          have hpos : 8 ≤ getSize h.mem h.lastBlock := ht.min _ ht.last_mem
          omega
    · exact hs
  have hneeded : neededPages h.mem h.lastBlock (exactRequest size) = 0 := by
    have hs : spare h = exactRequest size := by
      unfold spare
      rw [hfree]
      exact heq.symm
    rw [neededPages_eq hb.enough.exactRequest_lt hs.le, if_pos (by omega), missingPages, hs]
    omega
  have henlarge : enlargeHeap pages h 0 = some h := by
    simp only [enlargeHeap, enlargeLoop, assert_pos ht.last_end, bind_eq_bind,
      bind_some]
  obtain ⟨h', bs', e, -⟩ := takeLast_spec ht hfree halign hmin hle
  refine ⟨h', ?_, (takeLast_cases e).2.2.1⟩
  unfold kmalloc
  rw [if_neg h0, roundRequest_eq hb.enough.exactRequest_lt, hsearch, bind_some, allocFrom,
    assert_pos rfl, hneeded]
  simp only [henlarge, e, bind_eq_bind, bind_some]

/-- Any other block of exactly the size is passed over. -/
theorem not_servedFrom_exact (hp : Placed h) (heq : exactRequest size = getSize h.mem b)
    (hlast : b ≠ h.lastBlock) : ¬ ServedFrom pages h size b := by
  rintro ⟨h', hk, -⟩
  have hcases := kmalloc_cases ht h0 hk
  rw [roundRequest_eq hb.enough.exactRequest_lt] at hcases
  rcases hcases with ⟨-, c, -, -, -, hc, hpc, -⟩ | ⟨-, h1, he, htake⟩
  · obtain rfl : b = c := Nat.add_right_cancel hpc
    exact absurd hc.2 (by omega)
  · have hb1 : b = h1.lastBlock := Nat.add_right_cancel (takeLast_cases htake).1
    have hle := (enlargeLoop_bounds (enlargeHeap_loop he).1 hp.stop).2.1
    have hbl := ht.le_last hb.mem
    omega

end FirstEnough

theorem servedFrom_iff (ht : Tiled h bs) (hp : Placed h) (hb : FirstEnough h bs size b) :
    ServedFrom pages h size b ↔
      size ≠ 0 ∧ (exactRequest size = getSize h.mem b → b = h.lastBlock) := by
  by_cases h0 : size = 0
  · refine iff_of_false ?_ fun hc => hc.1 h0
    rintro ⟨h', hk, -⟩
    rw [kmalloc, if_pos h0] at hk
    have hzero := congrArg Prod.snd (Option.some.inj hk)
    exact absurd hzero.symm (Nat.succ_ne_zero _)
  · constructor
    · intro hs
      refine ⟨h0, fun heq => ?_⟩
      by_contra hlast
      exact not_servedFrom_exact ht hb h0 hp heq hlast hs
    · rintro ⟨-, hexact⟩
      by_cases heq : exactRequest size = getSize h.mem b
      · exact servedFrom_last ht hb h0 heq (hexact heq)
      · exact servedFrom_larger ht hb h0 heq

instance (m : Mem) (size b : Nat) : Decidable (Enough m size b) :=
  inferInstanceAs (Decidable (_ ∧ _))

theorem exists_firstEnough (hb : ∃ b ∈ bs, Enough h.mem size b) : ∃ b, FirstEnough h bs size b := by
  obtain ⟨c, hc, henough⟩ := hb
  have hsome : (bs.find? fun b => decide (Enough h.mem size b)).isSome :=
    List.find?_isSome.mpr ⟨c, hc, decide_eq_true henough⟩
  obtain ⟨b, hfind⟩ := isSome_iff_exists.mp hsome
  obtain ⟨hb, front, back, hbs, hfront⟩ := List.find?_eq_some_iff_append.mp hfind
  exact ⟨b, of_decide_eq_true hb, front, back, hbs, fun c hc => by simpa using hfront c hc⟩

/-! ## The same size again and again -/

/-- `kfree(kmalloc(size))`. -/
def again (pages : Mem) (size : Nat) (h : Heap) : Option Heap :=
  (kmalloc pages h size).map fun x => kfree x.1 x.2

/-- No free block of exactly the size is the first that is enough, but for the last block. -/
def NoExactFit (size : Nat) (h : Heap) : Prop :=
  ∀ bs b, Tiled h bs → FirstEnough h bs size b → exactRequest size = getSize h.mem b →
    b = h.lastBlock

theorem again_enough (ht : Tiled h bs) (hp : Placed h) (h0 : size ≠ 0)
    (hlt : exactRequest size < 2 ^ 32) (ha : again pages size h = some h') :
    Placed h' ∧ ∃ bs', Tiled h' bs' ∧ ∃ b ∈ bs', Enough h'.mem size b := by
  obtain ⟨⟨h1, p⟩, hk, rfl⟩ := map_eq_some_iff.mp ha
  have hp1 := hp.kmalloc ht hk
  obtain ⟨h2, bs', b, hk', ht', hb, hroom⟩ :=
    kmalloc_of_serves ht h0 (serves_of_kmalloc ht hp h0 hk hlt)
  rw [hk] at hk'
  cases hk'
  have hfree : kfree h1 (getData b) = { h1 with mem := setUsed h1.mem b false } := rfl
  rw [hfree]
  refine ⟨⟨hp1.start, hp1.stop⟩, bs', ht'.setUsed hb false, b, hb, getUsed_setUsed .., ?_⟩
  rwa [getSize_setUsed]

/-- Once there is a block that is enough the heap does not grow any more. -/
theorem again_heapEnd (ht : Tiled h bs) (hp : Placed h) (hb : ∃ b ∈ bs, Enough h.mem size b)
    (h0 : size ≠ 0) (hno : NoExactFit size h) (ha : again pages size h = some h') :
    h'.heapEnd = h.heapEnd := by
  obtain ⟨b, hfirst⟩ := exists_firstEnough hb
  have hserved : ServedFrom pages h size b :=
    (servedFrom_iff ht hp hfirst).mpr ⟨h0, hno bs b ht hfirst⟩
  obtain ⟨h1, hk, hend⟩ := hserved
  obtain ⟨x, hk', rfl⟩ := map_eq_some_iff.mp ha
  rw [hk] at hk'
  cases hk'
  exact hend

/-- **Freed memory is reused, unless it fits exactly.** In every state of a run and for every size:
the first free block that is not smaller than the request serves it, with the heap as long as it
was, if and only if it is larger or the last. And over requests for one size, each given back, the
heap grows with the first at most, as long as none meets an exact fit. -/
theorem freed_memory_reused {mem : Mem} {h₀ : Heap} {s : State} (hboot : BootFits mem)
    (hinit : init mem = some h₀) (hr : Reach step Admissible { heap := h₀, live := [] } s) :
    ∃ bs, HeapInv s bs ∧ ∀ pages size,
      (∀ b, FirstEnough s.heap bs size b → (ServedFrom pages s.heap size b ↔
        size ≠ 0 ∧ (exactRequest size = getSize s.heap.mem b → b = s.heap.lastBlock))) ∧
      ∀ h₁ h₂, exactRequest size < 2 ^ 32 → again pages size s.heap = some h₁ →
        Reach (fun h (_ : Unit) => again pages size h) (fun h _ => NoExactFit size h) h₁ h₂ →
        h₂.heapEnd = h₁.heapEnd := by
  obtain ⟨⟨bs, hi⟩, hp⟩ := reach_placed hboot hinit hr
  have ht := hi.tiled
  refine ⟨bs, hi, fun pages size => ⟨fun b hb => servedFrom_iff ht hp hb, ?_⟩⟩
  intro h₁ h₂ hlt hfirst hloop
  by_cases h0 : size = 0
  · refine hloop.invariant (I := fun h => h.heapEnd = h₁.heapEnd) rfl ?_
    intro h _ h' hI _ ha
    obtain ⟨x, hk, rfl⟩ := map_eq_some_iff.mp ha
    rw [kmalloc, if_pos h0] at hk
    cases hk
    exact hI
  · refine (hloop.invariant (I := fun h => h.heapEnd = h₁.heapEnd ∧ Placed h ∧
      ∃ bs', Tiled h bs' ∧ ∃ b ∈ bs', Enough h.mem size b)
      ⟨rfl, again_enough ht hp h0 hlt hfirst⟩ ?_).1
    rintro h _ h' ⟨hend, hp', bs', ht', hb⟩ hno ha
    exact ⟨(again_heapEnd ht' hp' hb h0 hno ha).trans hend, again_enough ht' hp' h0 hlt ha⟩

theorem freed_memory_reused_bootImage : ∃ h₀ b, init bootImage = some h₀ ∧
    ServedFrom (fun _ => 1) h₀ 100 b := by
  obtain ⟨h₀, -, hinit, -⟩ := init_spec (show BootFits bootImage by unfold BootFits; decide)
  obtain ⟨bs, hi, hall⟩ := freed_memory_reused (by unfold BootFits; decide) hinit .start
  have hfacts : (init bootImage).map (fun h => (getUsed h.mem h.lastBlock,
      getSize h.mem h.lastBlock, h.lastBlock, h.heapStart))
      = some (false, 2097132, heapBase + 20, heapBase) := by decide +kernel
  rw [hinit, map_some, Option.some.injEq] at hfacts
  simp only [Prod.mk.injEq] at hfacts
  obtain ⟨hfree, hsize, hlast, hstart⟩ := hfacts
  have hreq : exactRequest 100 = 104 := rfl
  obtain ⟨b, hb⟩ : ∃ b, FirstEnough h₀ bs 100 b := exists_firstEnough
    ⟨h₀.lastBlock, hi.tiled.last_mem, hfree, by rw [hsize, hreq]; omega⟩
  refine ⟨h₀, b, hinit, ((hall _ 100).1 b hb).mpr ⟨by decide, fun heq => ?_⟩⟩
  -- before the last block there are 20 bytes
  by_contra hne
  have hbounds : h₀.heapStart ≤ b := (hi.tiled.tiles.mem_bounds hb.mem).1
  have hle : b ≤ h₀.lastBlock := hi.tiled.le_last hb.mem
  have heq : 104 = getSize h₀.mem b := heq
  rcases hi.tiled.tiles.disjoint hb.mem hi.tiled.last_mem hne with hd | hd
  · have hd : b + getSize h₀.mem b ≤ h₀.lastBlock := hd
    omega
  · have hd : h₀.lastBlock + getSize h₀.mem h₀.lastBlock ≤ b := hd
    omega

/-- **A block that fits exactly is passed over**: 12 bytes are left at the end of the heap when a
page is asked for and given back, and asked for again. The heap grows each time, though a free
block of the size is there the second time. -/
theorem exact_fit_passed_over : ∃ h₀ s h₁ h₂, init bootImage = some h₀ ∧
    Reach step Admissible { heap := h₀, live := [] } s ∧
    again (fun _ => 0) 4092 s.heap = some h₁ ∧ again (fun _ => 0) 4092 h₁ = some h₂ ∧
    (∃ b, getUsed h₁.mem b = false ∧ getSize h₁.mem b = exactRequest 4092 ∧
      h₁.heapStart ≤ b ∧ b < h₁.heapEnd) ∧
    s.heap.heapEnd < h₁.heapEnd ∧ h₁.heapEnd < h₂.heapEnd := by
  obtain ⟨h₀, bs₀, hinit, ht₀, -⟩ := init_spec (show BootFits bootImage by unfold BootFits; decide)
  have hfit : (init bootImage).map (fun h => searchAll h (roundRequest 2097116))
      = some (some (.split (heapBase + 20))) := by decide +kernel
  have hrun : ((init bootImage).bind fun h => (step { heap := h, live := [] } (.kmalloc 2097116)).bind
      fun s => (again (fun _ => 0) 4092 s.heap).bind fun h₁ => (again (fun _ => 0) 4092 h₁).map
        fun h₂ => (s.heap.heapEnd, h₁.heapEnd, h₂.heapEnd, h₁.heapStart,
          getUsed h₁.mem (heapBase + 0x1ffff4), getSize h₁.mem (heapBase + 0x1ffff4)))
      = some (heapBase + 0x200000, heapBase + 0x201000, heapBase + 0x202000, heapBase, false,
        0x1000) := by decide +kernel
  rw [hinit, map_some, Option.some.injEq] at hfit
  rw [hinit, bind_some] at hrun
  obtain ⟨s, hs, hrun⟩ := bind_eq_some_iff.mp hrun
  obtain ⟨h₁, ha₁, hrun⟩ := bind_eq_some_iff.mp hrun
  obtain ⟨h₂, ha₂, hfacts⟩ := map_eq_some_iff.mp hrun
  simp only [Prod.mk.injEq] at hfacts
  obtain ⟨hend, hend₁, hend₂, hstart, hfree, hsize⟩ := hfacts
  have hok : Admissible { heap := h₀, live := [] } (.kmalloc 2097116) :=
    ⟨by unfold RequestOk; decide, fun block hb => (by rw [hfit] at hb; cases hb), rfl⟩
  exact ⟨h₀, s, h₁, h₂, hinit, .tail .start hok hs, ha₁, ha₂,
    ⟨_, hfree, hsize, by omega, by omega⟩, by omega, by omega⟩

end Flix.KHeap

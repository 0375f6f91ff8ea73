import Flix.Memory.KHeapOps
import Flix.Lib.Runs

/-!
# The heap over whole runs

A run starts from `KHeap::init` and is any sequence of requests, of releases of
pointers still held, and of client writes inside the payloads of held pointers.
`HeapInv` is what every state of such a run satisfies; each operation is shown to
keep it, to succeed — no assertion of `kmalloc`, `enlargeHeap` or `splitBlock`
fails — and to leave the headers of all other held blocks alone.

Each request comes with what its new pages read as. They may be anything, but the first
one has to read as a free block; pages of zeros do.
-/

namespace Flix.KHeap

open Bytes Tiling Runs

/-- The heap, and the pointers its clients hold with the sizes they asked for. -/
structure State where
  heap : Heap
  live : List (Nat × Nat)

inductive Op where
  /-- With what new pages read as. -/
  | kmalloc (size : Nat) (pages : Mem := fun _ => 0)
  | kfree (ptr : Nat)
  /-- A client stores a byte in a payload it holds. -/
  | write (ptr offset : Nat) (v : UInt8)

/-- One operation; `none` if an assertion fails. -/
def step (s : State) : Op → Option State
  | .kmalloc size pages => do
      let (h, p) ← kmalloc pages s.heap size
      some { heap := h, live := if p = 0 then s.live else (p, size) :: s.live }
  | .kfree p => some { heap := kfree s.heap p, live := s.live.filter (fun a => a.1 != p) }
  | .write p offset v =>
    some { s with heap := { s.heap with mem := writeLE s.heap.mem (p + offset) 1 v.toNat } }

/-- What callers may ask for. -/
def Admissible (s : State) : Op → Prop
  | .kmalloc size pages =>
    RequestOk size ∧ NoWrap s.heap size ∧ getUsed pages s.heap.heapEnd = false
  | .kfree p => p = 0 ∨ ∃ n, (p, n) ∈ s.live
  | .write p offset _ => ∃ n, (p, n) ∈ s.live ∧ offset < n

/-- The block behind a pointer. -/
def blockOf (p : Nat) : Nat := p - HEADER_SIZE

/-- The end of the payload a pointer leads to. -/
def payloadEnd (h : Heap) (p : Nat) : Nat := blockOf p + getSize h.mem (blockOf p)

/-- The heap invariant. -/
structure HeapInv (s : State) (bs : List Nat) : Prop where
  /-- The blocks tile the heap, none too short, and `m_lastBlock` is the last one. -/
  tiled : Tiled s.heap bs
  /-- Sizes are multiples of 4. -/
  aligned : ∀ b ∈ bs, getSize s.heap.mem b % BLOCK_ALIGN = 0
  /-- Live pointers are distinct. -/
  nodup : (s.live.map Prod.fst).Nodup
  /-- Each is the payload of a used block, with room for what was asked. -/
  live : ∀ a ∈ s.live, blockOf a.1 ∈ bs ∧ a.1 = getData (blockOf a.1)
    ∧ getUsed s.heap.mem (blockOf a.1) = true ∧ a.2 ≤ getSize s.heap.mem (blockOf a.1) - HEADER_SIZE
  /-- Payloads do not overlap. -/
  disjoint : s.live.Pairwise (fun a c =>
    payloadEnd s.heap a.1 ≤ c.1 ∨ payloadEnd s.heap c.1 ≤ a.1)

theorem blockOf_getData (b : Nat) : blockOf (getData b) = b := by
  unfold blockOf getData HEADER_SIZE; omega

variable {s : State} {bs : List Nat}

/-- Distinct used blocks have disjoint payloads, so the last part follows from the others. -/
theorem HeapInv.mk' (ht : Tiled s.heap bs) (hnd : (s.live.map Prod.fst).Nodup)
    (hlive : ∀ a ∈ s.live, blockOf a.1 ∈ bs ∧ a.1 = getData (blockOf a.1)
      ∧ getUsed s.heap.mem (blockOf a.1) = true
      ∧ a.2 ≤ getSize s.heap.mem (blockOf a.1) - HEADER_SIZE) : HeapInv s bs := by
  refine ⟨ht, fun b _ => getSize_mod _ b, hnd, hlive, ?_⟩
  rw [List.Nodup, List.pairwise_map] at hnd
  refine hnd.imp_of_mem ?_
  intro a c ha hc hne
  obtain ⟨hab, hap, _⟩ := hlive a ha
  obtain ⟨hcb, hcp, _⟩ := hlive c hc
  have hb : blockOf a.1 ≠ blockOf c.1 := by
    intro he
    rw [hap, hcp, he] at hne
    exact hne rfl
  unfold payloadEnd
  unfold getData HEADER_SIZE at hap hcp
  rcases ht.tiles.disjoint hab hcb hb with hd | hd
  · exact Or.inl (by omega)
  · exact Or.inr (by omega)

/-! ## The start -/

/-- The size word of the multiboot information, which the bootstrap code has copied to
heap + 8. -/
def bootSize (mem : Mem) : Nat := readLE mem (heapBase + 8) 4

/--
The multiboot information is more than one word (what `init` asserts) and its
block leaves room for another one in the initial 2 MB.
-/
def BootFits (mem : Mem) : Prop :=
  4 < bootSize mem ∧ (bootSize mem + 3) / 4 * 4 + HEADER_SIZE + BLOCK_MIN_SIZE ≤ 0x200000

/-- `init` builds two blocks: the multiboot information, in use, and the free rest. -/
theorem init_spec {mem : Mem} (hboot : BootFits mem) :
    ∃ h bs, init mem = some h ∧ Tiled h bs ∧ h.heapStart = heapBase ∧
      h.heapEnd = heapBase + 0x200000 := by
  obtain ⟨h4, hfit⟩ := hboot
  unfold HEADER_SIZE BLOCK_MIN_SIZE HEADER_SIZE at hfit
  have hbs : (intAlignSup (bootSize mem) BLOCK_ALIGN + HEADER_SIZE) % 2 ^ 32
      = (bootSize mem + 3) / 4 * 4 + 4 := by
    unfold intAlignSup BLOCK_ALIGN HEADER_SIZE; omega
  have hptr : ptrAlignSup (heapBase + HEADER_SIZE) 8 = heapBase + 8 := by decide
  obtain ⟨n, hn⟩ : ∃ n, n = (bootSize mem + 3) / 4 * 4 + 4 := ⟨_, rfl⟩
  rw [← hn] at hbs
  obtain ⟨m1, e1, s1, u1, f1⟩ := setSize_spec (m := mem) (n := n)
    (by unfold BLOCK_ALIGN; omega) (by omega)
  obtain ⟨m2, e2, s2, u2, f2⟩ := setSize_spec (b := heapBase + n)
    (n := 0x200000 - n) (by unfold BLOCK_ALIGN; omega) (by omega)
  have hmin : BLOCK_MIN_SIZE < n := by unfold BLOCK_MIN_SIZE HEADER_SIZE; omega
  have hfirst : getSize (setUsed m2 (heapBase + n) false) heapBase = n := by
    rw [getSize_congr (m := setUsed m1 heapBase true), getSize_setUsed, s1]
    intro x h1 h2
    rw [setUsed_outside (by omega), f2 x (by omega)]
  refine ⟨{ mem := setUsed m2 (heapBase + n) false, heapStart := heapBase,
            heapEnd := heapBase + 0x200000, lastBlock := heapBase + n },
    [heapBase, heapBase + n], ?_,
    ⟨?_, ?_, ⟨[heapBase], rfl⟩, (by decide : (heapBase + 0x200000) % PAGE_SIZE = 0)⟩, rfl,
    rfl⟩
  · unfold init
    have hb : readLE mem (heapBase + 8) 4 = bootSize mem := rfl
    simp only [hptr, hb, hbs, assert_pos hmin, e1,
      sub32_of_le (show 0x200000 < 2 ^ 32 by decide) (show n ≤ 0x200000 by omega), e2,
      bind_eq_bind, bind_some]
  · refine ⟨rfl, by rw [hfirst], ?_⟩
    show heapBase + _ + _ = heapBase + 0x200000
    rw [hfirst, getSize_setUsed]
    omega
  · intro b hb
    simp only [mem_cons, not_mem_nil, or_false] at hb
    rcases hb with rfl | rfl
    · rw [hfirst]; omega
    · rw [getSize_setUsed]
      unfold BLOCK_MIN_SIZE HEADER_SIZE
      omega

/-! ## One operation -/

/-- The header of the block behind `p` is the same in both heaps. -/
def SameHeader (h h' : Heap) (p : Nat) : Prop :=
  getSize h'.mem (blockOf p) = getSize h.mem (blockOf p)
    ∧ getUsed h'.mem (blockOf p) = getUsed h.mem (blockOf p)

/-- What an operation owes the pointers it does not release. -/
def KeepsOthers (s s' : State) (op : Op) : Prop :=
  ∀ a ∈ s.live, op ≠ .kfree a.1 → a ∈ s'.live ∧ SameHeader s.heap s'.heap a.1

theorem inv_allocates {h' : Heap} {bs' : List Nat} {b size r : Nat}
    (hi : HeapInv s bs) (ha : Allocates s.heap h' bs bs' b r) (hr : size + HEADER_SIZE ≤ r) :
    HeapInv { heap := h', live := (getData b, size) :: s.live } bs'
      ∧ ∀ a ∈ s.live, SameHeader s.heap h' a.1 := by
  have hkeep : ∀ a ∈ s.live, blockOf a.1 ∈ bs' ∧ SameHeader s.heap h' a.1 := by
    intro a hmem
    obtain ⟨hb, _, hu, _⟩ := hi.live a hmem
    obtain ⟨hb', hbytes⟩ := ha.keep _ hb hu
    have hm := hi.tiled.min _ hb
    unfold BLOCK_MIN_SIZE HEADER_SIZE at hm
    exact ⟨hb', getSize_congr (fun x h1 h2 => hbytes x h1 (by omega)),
      getUsed_congr (fun x h1 h2 => hbytes x h1 (by omega))⟩
  refine ⟨HeapInv.mk' ha.tiled ?_ ?_, fun a hmem => (hkeep a hmem).2⟩
  · rw [List.map_cons, nodup_cons]
    refine ⟨?_, hi.nodup⟩
    intro hmem
    -- a live pointer leads to a used block, the new one to a block that was free
    obtain ⟨a, hal, hap⟩ := mem_map.mp hmem
    obtain ⟨hb, _, hu, _⟩ := hi.live a hal
    rw [hap, blockOf_getData] at hb hu
    rw [ha.fresh hb] at hu
    exact absurd hu (by simp)
  · intro a hmem
    rcases mem_cons.mp hmem with rfl | hmem
    · simp only [blockOf_getData]
      have := ha.room
      exact ⟨ha.mem, trivial, ha.used, by omega⟩
    · obtain ⟨hb', hs, hu'⟩ := hkeep a hmem
      obtain ⟨_, hp, hu, hsz⟩ := hi.live a hmem
      exact ⟨hb', hp, hu'.trans hu, by rw [hs]; exact hsz⟩

theorem kmalloc_step {size : Nat} {pages : Mem} (hi : HeapInv s bs)
    (hok : Admissible s (.kmalloc size pages)) :
    ∃ s' bs', step s (.kmalloc size pages) = some s' ∧ HeapInv s' bs'
      ∧ KeepsOthers s s' (.kmalloc size pages) := by
  by_cases h0 : size = 0
  · subst h0
    exact ⟨s, bs, rfl, hi, fun a ha _ => ⟨ha, rfl, rfl⟩⟩
  · obtain ⟨h', bs', b, e, ha⟩ := kmalloc_spec hi.tiled h0 hok.1 hok.2.1 hok.2.2
    obtain ⟨hi', hsame⟩ := inv_allocates hi ha (roundRequest_spec h0 hok.1).2.2.1
    refine ⟨_, bs', ?_, hi', fun a hm _ => ⟨mem_cons_of_mem _ hm, hsame a hm⟩⟩
    have hp : getData b ≠ 0 := by unfold getData HEADER_SIZE; omega
    rw [step, e]
    simp only [bind_eq_bind, bind_some, if_neg hp]

theorem kfree_step {p : Nat} (hi : HeapInv s bs) (hok : Admissible s (.kfree p)) :
    ∃ s' bs', step s (.kfree p) = some s' ∧ HeapInv s' bs' ∧ KeepsOthers s s' (.kfree p) := by
  have hstay : ∀ a ∈ s.live, (Op.kfree p ≠ .kfree a.1) →
      a ∈ s.live.filter (fun a => a.1 != p) := by
    intro a hm hne
    rw [List.mem_filter]
    exact ⟨hm, by simpa using fun he => hne (by rw [he])⟩
  have hnd : ((s.live.filter (fun a => a.1 != p)).map Prod.fst).Nodup :=
    hi.nodup.sublist (List.filter_sublist.map _)
  by_cases hp0 : p = 0
  · have hk : kfree s.heap p = s.heap := by unfold kfree; rw [if_pos hp0]
    refine ⟨_, bs, rfl, ?_, fun a hm hne => ⟨hstay a hm hne, ?_⟩⟩
    · rw [hk]
      exact HeapInv.mk' hi.tiled hnd (fun a hm => hi.live a (List.mem_filter.mp hm).1)
    · rw [hk]; exact ⟨rfl, rfl⟩
  · obtain ⟨n, hn⟩ := hok.resolve_left hp0
    obtain ⟨hb, hp, _, _⟩ := hi.live _ hn
    have hk : kfree s.heap p = { s.heap with mem := setUsed s.heap.mem (blockOf p) false } := by
      unfold kfree; rw [if_neg hp0]; rfl
    -- the header of any other live block lies apart from the one that is freed
    have hsame : ∀ a ∈ s.live, a.1 ≠ p → SameHeader s.heap (kfree s.heap p) a.1 := by
      intro a hm hne
      obtain ⟨hab, hap, _⟩ := hi.live a hm
      have hbne : blockOf a.1 ≠ blockOf p := by
        intro he
        rw [hap, he, ← hp] at hne
        exact hne rfl
      rw [hk]
      exact ⟨getSize_congr (fun x h1 h2 => setUsed_outside (hi.tiled.header_apart hb hab hbne h1 h2)),
        getUsed_congr (fun x h1 h2 => setUsed_outside (hi.tiled.header_apart hb hab hbne h1 h2))⟩
    refine ⟨_, bs, rfl, HeapInv.mk' ?_ hnd ?_, fun a hm hne => ⟨hstay a hm hne, hsame a hm ?_⟩⟩
    · rw [hk]; exact hi.tiled.setUsed hb false
    · intro a hm
      obtain ⟨hm, hne⟩ := List.mem_filter.mp hm
      obtain ⟨hab, hap, hu, hsz⟩ := hi.live a hm
      obtain ⟨hs', hu'⟩ := hsame a hm (by simpa using hne)
      exact ⟨hab, hap, hu'.trans hu, by
        rw [hs']; exact hsz⟩
    · exact fun he => hne (by rw [he])

/-- A byte inside a payload is in no header at all. -/
theorem HeapInv.payload_apart {a : Nat × Nat} {offset c : Nat} (hi : HeapInv s bs)
    (ha : a ∈ s.live) (hoff : offset < a.2) (hc : c ∈ bs) :
    a.1 + offset < c ∨ c + 4 ≤ a.1 + offset := by
  obtain ⟨hb, hp, -, hsz⟩ := hi.live a ha
  simp only [getData, HEADER_SIZE] at hp hsz
  by_cases hcb : c = blockOf a.1
  · omega
  · rcases hi.tiled.tiles.disjoint hb hc (Ne.symm hcb) with hd | hd <;> omega

theorem write_step {p offset : Nat} {v : UInt8} (hi : HeapInv s bs)
    (hok : Admissible s (.write p offset v)) :
    ∃ s' bs', step s (.write p offset v) = some s' ∧ HeapInv s' bs'
      ∧ KeepsOthers s s' (.write p offset v) := by
  obtain ⟨n, hn, hoff⟩ := hok
  have hbytes : ∀ c ∈ bs, ∀ x, c ≤ x → x < c + 4 →
      writeLE s.heap.mem (p + offset) 1 v.toNat x = s.heap.mem x := by
    intro c hc x h1 h2
    refine writeLE_outside ?_
    have hapart : p + offset < c ∨ c + 4 ≤ p + offset := hi.payload_apart hn hoff hc
    omega
  refine ⟨_, bs, rfl, HeapInv.mk' ?_ hi.nodup ?_, ?_⟩
  · exact hi.tiled.of_same_headers (fun c hc => getSize_congr (hbytes c hc)) rfl rfl rfl
  · intro a hm
    obtain ⟨hab, hap, hu, hsz⟩ := hi.live a hm
    refine ⟨hab, hap, ?_, ?_⟩
    · rw [← hu]; exact getUsed_congr (hbytes _ hab)
    · rw [getSize_congr (hbytes _ hab)]; exact hsz
  · intro a hm _
    have hab := (hi.live a hm).1
    exact ⟨hm, getSize_congr (hbytes _ hab), getUsed_congr (hbytes _ hab)⟩

/-- Every admissible operation succeeds, keeps the invariant and spares the others. -/
theorem heapInv_step (hi : HeapInv s bs) {op : Op} (hok : Admissible s op) :
    ∃ s' bs', step s op = some s' ∧ HeapInv s' bs' ∧ KeepsOthers s s' op := by
  cases op with
  | kmalloc size pages => exact kmalloc_step hi hok
  | kfree p => exact kfree_step hi hok
  | write p offset v => exact write_step hi hok

/--
**The heap invariant over whole runs.** Whatever the initial heap page holds
behind a fitting multiboot size, `init` succeeds, every state reached from it by
admissible operations satisfies the invariant, and there every admissible
operation succeeds and keeps the headers of all other live blocks.
-/
theorem kheap_runs_keep_invariant (mem : Mem) (hboot : BootFits mem) :
    ∃ h₀, init mem = some h₀ ∧
      ∀ s, Reach step Admissible { heap := h₀, live := [] } s →
        (∃ bs, HeapInv s bs) ∧
        ∀ op, Admissible s op → ∃ s', step s op = some s' ∧ KeepsOthers s s' op := by
  obtain ⟨h₀, bs₀, e₀, ht₀, _⟩ := init_spec hboot
  refine ⟨h₀, e₀, fun s hs => ?_⟩
  have hinv : ∃ bs, HeapInv s bs := by
    refine Reach.invariant (I := fun s => ∃ bs, HeapInv s bs) ?_ ?_ hs
    · exact ⟨bs₀, HeapInv.mk' ht₀ (by simp) (by simp)⟩
    · rintro s op s' ⟨bs, hi⟩ hok hstep
      obtain ⟨s₁, bs₁, e₁, hi₁, _⟩ := heapInv_step hi hok
      rw [hstep] at e₁
      exact ⟨bs₁, Option.some.inj e₁ ▸ hi₁⟩
  refine ⟨hinv, fun op hok => ?_⟩
  obtain ⟨bs, hi⟩ := hinv
  obtain ⟨s₁, _, e₁, _, hk⟩ := heapInv_step hi hok
  exact ⟨s₁, e₁, hk⟩

/-- A memory with 16 bytes of multiboot information at heap + 8. -/
def bootImage : Mem := fun x => if x = heapBase + 8 then 16 else 0

theorem searchAll_bootImage :
    (init bootImage).map (fun h => searchAll h (roundRequest 10))
      = some (some (.split (heapBase + 20))) := by decide

theorem kheap_runs_keep_invariant_bootImage :
    ∃ h₀ s, init bootImage = some h₀ ∧ Reach step Admissible { heap := h₀, live := [] } s
      ∧ (s.live.map Prod.snd = [10]) ∧ ∃ bs, HeapInv s bs := by
  obtain ⟨h₀, e₀, hall⟩ := kheap_runs_keep_invariant bootImage
    (by unfold BootFits; decide)
  have hs := searchAll_bootImage
  rw [e₀, map_some, Option.some.injEq] at hs
  have hok : Admissible { heap := h₀, live := [] } (.kmalloc 10) :=
    ⟨by unfold RequestOk; decide, fun block hb => (by rw [hs] at hb; cases hb), rfl⟩
  obtain ⟨s, e, _⟩ := (hall _ Reach.start).2 _ hok
  have hr := Reach.tail Reach.start hok e
  refine ⟨h₀, s, e₀, hr, ?_, (hall s hr).1⟩
  rw [step] at e
  cases hk : kmalloc (fun _ => 0) h₀ 10 with
  | none => simp [hk] at e
  | some q =>
    obtain ⟨h, p⟩ := q
    have hp : p ≠ 0 := by
      intro h0
      have hv : (init bootImage).map (fun h => (kmalloc (fun _ => 0) h 10).map Prod.snd)
          = some (some (heapBase + 24)) := by decide +kernel
      rw [e₀, map_some, hk, map_some, h0] at hv
      exact absurd (Option.some.inj (Option.some.inj hv)) (show (0 : Nat) ≠ heapBase + 24 by decide)
    simp only [hk, bind_eq_bind, bind_some, if_neg hp, Option.some.injEq] at e
    rw [← e]
    rfl

end Flix.KHeap

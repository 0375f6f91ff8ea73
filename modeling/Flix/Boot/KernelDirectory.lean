import Flix.Boot.MemoryMap
import Flix.Paging.WiredDirectories

/-!
# The first directory

`PageDirectory::initKernelDirectory`, with the addresses of `flix.ld`. The tables of the
kernel's directory come from the static blocks of the page heap. Their frames are fixed,
but nothing is mapped there until the range of the page heap is: while the directory is
built the entries name frames that the directory itself does not know yet.

No other block can be had. `mapPage` asserts that paging is on, so that a kernel that
needs more than sixteen tables stops here.
-/

namespace Flix.Boot

open Function Radix Paging

variable {w w₁ w' : World} {v : VAddr} {paddr attr : Nat}

/-! ## The code -/

/-- How many pages the parts of the kernel have. `flix.ld` puts them one after the other. -/
structure Layout where
  text : Nat
  rodata : Nat
  /-- `.data` and `.bss`. -/
  data : Nat

def Layout.image (l : Layout) : KernelImage where
  textStart := 0x200000
  textSize := l.text * 0x1000
  rodataStart := 0x200000 + l.text * 0x1000
  rodataSize := l.rodata * 0x1000
  dataStart := 0x200000 + l.text * 0x1000 + l.rodata * 0x1000
  dataSize := l.data * 0x1000
  bssEnd := 0x200000 + l.text * 0x1000 + l.rodata * 0x1000 + l.data * 0x1000

/-- Where the linker puts what is loaded at `phys`. -/
def Symbols.virtualOf (phys : Nat) : VAddr := 0xffffffffc0000000 + BitVec.ofNat 64 (phys - 0x200000)

def Symbols.kernelVVga : VAddr := 0xffffffffcf000000

def Symbols.stackBase : VAddr := 0xffffffffd0000000

def Symbols.heapBase : VAddr := 0xfffffffff0000000

/-- `allocBlock` before `g_pagingReady`: a block that is not static has to be mapped. -/
def bootBlock (w : World) : Option (World × Nat × Nat) := do
  let (w, index, phys) ← allocBlock w
  assert (index * 2 < 32)
  some (w, index, phys)

/-- `mapRangeTo`, of `n` pages. -/
def mapRangeTo (w : World) (v : VAddr) (phys attr : Nat) : Nat → Option World
  | 0 => some w
  | n + 1 => do
      let w ← mapPageToRaw bootBlock w w.kernel.root v phys attr
      mapRangeTo w (v + 0x1000) (phys + 0x1000) attr n

/-- `MAP_RANGE`. -/
def MAP_RANGE (w : World) (v : VAddr) (phys size attr : Nat) : Option World := do
  let w ← mapRangeTo w v phys attr ((size + 0xfff) / 0x1000)
  let mem ← mapRange ⟨w.frames, 0⟩ phys size
  some { w with frames := mem.frames }

/-- Before there is any directory. The page heap starts where `initWithDefaultPaging` maps it. -/
def Layout.world (l : Layout) : World where
  tables := fun _ => none
  heap := ⟨[], [], false, 0⟩
  stackHeap := ⟨[], 0⟩
  frames := []
  kernel := ⟨0, 0⟩
  pageHeapStart := KHeap.ptrAlignSup l.image.bssEnd 0x200000 + 0x200000

/-- `initKernelDirectory`. -/
def initKernelDirectory (l : Layout) : Option World := do
  let k := l.image
  let (w, pd) ← createPm l.world
  let w := { w with kernel := pd }
  let w ← mapPageToRaw bootBlock w w.kernel.root Symbols.kernelVVga 0xB8000 ATTR_RW
  let frames ← Paging.setPageUsed w.frames (0xB8000 / 0x1000)
  let w := { w with frames := frames }
  let w ← MAP_RANGE w (Symbols.virtualOf k.textStart) k.textStart k.textSize 0
  let w ← MAP_RANGE w (Symbols.virtualOf k.rodataStart) k.rodataStart k.rodataSize ATTR_NOEXEC
  let w ← MAP_RANGE w (Symbols.virtualOf k.dataStart) k.dataStart k.dataSize (ATTR_NOEXEC + ATTR_RW)
  let addr := KHeap.ptrAlignSup k.bssEnd 0x200000
  let w ← MAP_RANGE w (Symbols.stackBase - 0x4000) (addr + 0x200000 - 0x4000) 0x4000
    (ATTR_NOEXEC + ATTR_RW)
  let addr := addr + 0x200000
  let w ← MAP_RANGE w pageHeapBase addr (32 * 0x1000) (ATTR_NOEXEC + ATTR_RW)
  let addr := addr + 0x200000
  MAP_RANGE w Symbols.heapBase addr 0x200000 (ATTR_NOEXEC + ATTR_RW)

/-! ## Static blocks -/

/-- Where a static block will be. -/
def StaticAt (start u f : Nat) : Prop := u < 16 ∧ f = baseOf (start + u * PAGE_SIZE * 2)

/-- The page heap as it is while the first directory is built: the first `k` blocks are taken. -/
structure Plain (k : Nat) (w : World) : Prop where
  map : w.heap.map = List.replicate k true
  pool : w.heap.pool = []
  idle : w.heap.allocating = false

variable {phys k b : Nat}

theorem allocBlock_index {u : Nat} (hidle : w.heap.allocating = false)
    (ha : allocBlock w = some (w₁, u, phys)) : u = w.nextBlock := by
  rw [allocBlock_eq hidle] at ha
  obtain ⟨-, ha⟩ := of_assert ha
  split at ha
  · obtain ⟨⟨w2, phys2⟩, -, ha⟩ := of_bind ha
    obtain ⟨⟨w3, phys3⟩, -, ha⟩ := of_bind ha
    cases ha
    rfl
  · cases ha
    rfl

theorem nextFree_replicate (k : Nat) :
    nextFree (List.replicate k true) = k ∧
      (withRoom (List.replicate k true)).set k true = List.replicate (k + 1) true := by
  have hnone : (List.replicate k true).findIdx? (fun used => !used) = none := by
    rw [List.findIdx?_eq_none_iff]
    intro x hx
    rw [List.eq_of_mem_replicate hx]
    rfl
  have hnext : nextFree (List.replicate k true) = k := by
    rw [nextFree, hnone, Option.getD_none, length_replicate]
  refine ⟨hnext, ?_⟩
  rw [withRoom, hnext, length_replicate, if_neg (lt_irrefl k),
    List.set_append_right _ _ (by simp), length_replicate, Nat.sub_self, List.replicate_succ']
  rfl

/-- The next static block. -/
theorem Plain.allocBlock (h : Plain k w) (hk : k < 16) :
    ∃ heap, allocBlock w = some ({ w with heap := heap }, k, w.pageHeapStart + k * PAGE_SIZE * 2) ∧
      Plain (k + 1) { w with heap := heap } := by
  obtain ⟨hnext, hset⟩ := nextFree_replicate k
  have hfree : (withRoom (List.replicate k true))[k]? = some false := by
    have hspec := (nextFree_spec (List.replicate k true)).2.1
    rwa [hnext] at hspec
  rw [allocBlock_eq h.idle, World.nextBlock, World.roomy, h.map, hnext, allocPage,
    assert_pos hfree, if_neg (by omega)]
  exact ⟨_, rfl, hset, h.pool, rfl⟩

theorem Plain.bootBlock {u : Nat} (h : Plain k w) (hb : bootBlock w = some (w₁, u, phys)) :
    u = k ∧ k < 16 ∧ phys = w.pageHeapStart + k * PAGE_SIZE * 2 ∧
      ∃ heap, w₁ = { w with heap := heap } ∧ Plain (k + 1) w₁ := by
  obtain ⟨⟨w2, i, a⟩, ha, hb⟩ := of_bind hb
  obtain ⟨hlt, hb⟩ := of_assert hb
  cases hb
  rcases Nat.lt_or_ge k 16 with hk | hk
  · obtain ⟨heap, halloc, hplain⟩ := h.allocBlock hk
    cases halloc.symm.trans ha
    exact ⟨rfl, hk, rfl, heap, rfl, hplain⟩
  · have hnext := allocBlock_index h.idle ha
    rw [World.nextBlock, h.map, (nextFree_replicate k).1] at hnext
    omega

/-- What a walk does while the first directory is built. -/
structure Built (w w' : World) : Prop where
  view : ∀ v, pte w' 0 v = pte w 0 v
  frames : w'.frames = w.frames
  kernel : w'.kernel = w.kernel
  start : w'.pageHeapStart = w.pageHeapStart
  plain : ∃ k ≤ 16, Plain k w'
  names : Names (StaticAt w.pageHeapStart) (· = 0) w →
    Names (StaticAt w.pageHeapStart) (· = 0) w'

theorem Built.trans (h : Built w w₁) (h' : Built w₁ w') : Built w w' :=
  ⟨fun v => (h'.view v).trans (h.view v), h'.frames.trans h.frames, h'.kernel.trans h.kernel,
    h'.start.trans h.start, h'.plain, fun hn => h.start ▸ h'.names (h.start.symm ▸ h.names hn)⟩

theorem bootBlock_creates {S : Nat} :
    Creates (· = 0) S bootBlock (setAttributes 0x3) (fun _ _ => True)
      (fun w w' => (∃ k ≤ 16, Plain k w) → Built w w') := by
  intro w r t i q n w₁ u phys e h hr hq hlen hP hn hi hb
  have ha : allocBlock w = some (w₁, u, phys) := by
    obtain ⟨⟨w2, i, a⟩, ha, hb⟩ := of_bind hb
    obtain ⟨-, hb⟩ := of_assert hb
    cases hb
    exact ha
  have halloc := allocBlock_spec h ha
  obtain ⟨hs, hext, hnext, -⟩ :=
    allocBlock_creates (setAttributes 0x3) e h hr hq hlen trivial hn hi ha
  refine ⟨hs, hext, hnext, fun ⟨k, _, hplain⟩ => ?_⟩
  obtain ⟨rfl, hk, rfl, heap, rfl, hplain'⟩ := hplain.bootBlock hb
  obtain ⟨hp, hbase⟩ := present_base 0x3 (w.pageHeapStart + u * PAGE_SIZE * 2) e rfl
  refine ⟨fun v => ?_, rfl, rfl, rfl, ⟨u + 1, hk, hplain'.map, hplain'.pool, hplain'.idle⟩, ?_⟩
  · have hview := halloc.ext.pte_create (e := setAttributes 0x3
      (e.present (w.pageHeapStart + u * PAGE_SIZE * 2))) halloc.sound halloc.block hr hq hn hi h
      hlen rfl v
    rcases hview with hv | ⟨hv, hz⟩
    · exact hv
    · rw [hv, hz]
  · intro hnames
    have hnames1 : Names (StaticAt w.pageHeapStart) (· = 0) { w with heap := heap } :=
      hnames.of_tables rfl
    exact hnames1.link halloc.sound halloc.block hn hp ⟨hk, hbase⟩

/-! ## Pages -/

/-- The first directory, while it is built: its root is in block 0, and `S` is the table that will
be shared. -/
structure Booting (S : Nat) (w : World) : Prop where
  sound : Sound w (· = 0) S
  second : follow w.tables 0 [511] = some 1
  plain : ∃ k ≤ 16, Plain k w
  names : Names (StaticAt w.pageHeapStart) (· = 0) w

variable {S : Nat}

theorem Booting.withFrames (h : Booting S w) (frames : List Bool) :
    Booting S { w with frames := frames } := by
  obtain ⟨k, hle, hk⟩ := h.plain
  exact ⟨h.sound.withFrames frames, h.second, ⟨k, hle, { hk with }⟩,
    h.names.of_tables rfl⟩

/-- A page is mapped, and nothing else is seen. -/
theorem Booting.mapPageToRaw (h : Booting S w)
    (hm : mapPageToRaw bootBlock w w.kernel.root v paddr attr = some w') :
    Booting S w' ∧ w'.frames = w.frames ∧ w'.kernel = w.kernel ∧
      w'.pageHeapStart = w.pageHeapStart ∧ ∀ v', pte w' 0 v' =
        if slotOf 0 v' = slotOf 0 v then setAttributes attr ((pte w 0 v).present paddr)
        else pte w 0 v' := by
  have hroot : w.kernel.root = 0 := h.sound.kernel
  rw [hroot] at hm
  obtain ⟨-, w₁, t, h1, hext, hQ, hf, -, rfl⟩ :=
    mapPageToRaw_spec (P := fun _ _ => True) (Q := fun w w' => (∃ k ≤ 16, Plain k w) → Built w w')
      (fun w hw => ⟨fun _ => rfl, rfl, rfl, rfl, hw, id⟩)
      (fun hab hbc ha => (hab ha).trans (hbc (hab ha).plain)) bootBlock_creates h.sound rfl
      (fun _ => trivial) hm
  have hbuilt := hQ h.plain
  obtain ⟨k, hle, hk⟩ := hbuilt.plain
  refine ⟨⟨h1.setEntry rfl hf _ _, follow_setEntry.trans (hext.follow_eq h.second),
    ⟨k, hle, { hk with }⟩, ?_⟩, hbuilt.frames, hbuilt.kernel, hbuilt.start,
    fun v' => ?_⟩
  · show Names (StaticAt w₁.pageHeapStart) _ _
    rw [hbuilt.start]
    exact (hbuilt.names h.names).setEntry h1 rfl hf _ _
  · rw [h1.pte_setEntry rfl rfl hf, hbuilt.view, hbuilt.view]

/-- What a directory shows after `n` pages have been mapped from `v` on, to `phys` and after. -/
structure MapsRange (w w' : World) (v : VAddr) (phys n : Nat) : Prop where
  frames : w'.frames = w.frames
  kernel : w'.kernel = w.kernel
  start : w'.pageHeapStart = w.pageHeapStart
  view : ∀ v', (∃ i < n, slotOf 0 v' = slotOf 0 (v + BitVec.ofNat 64 (i * 0x1000)) ∧
      (pte w' 0 v').p = true ∧ (pte w' 0 v').base = baseOf (phys + i * 0x1000)) ∨
    ((∀ i < n, slotOf 0 v' ≠ slotOf 0 (v + BitVec.ofNat 64 (i * 0x1000))) ∧
      pte w' 0 v' = pte w 0 v')

theorem Booting.mapRangeTo {n : Nat} (h : Booting S w) (hattr : attr.testBit 3 = false)
    (hm : mapRangeTo w v paddr attr n = some w') :
    Booting S w' ∧ MapsRange w w' v paddr n := by
  induction n generalizing w v paddr with
  | zero =>
    cases hm
    exact ⟨h, rfl, rfl, rfl, fun v' => .inr ⟨fun i hi => absurd hi (Nat.not_lt_zero i), rfl⟩⟩
  | succ n ih =>
    obtain ⟨w₁, hpage, hm⟩ := of_bind hm
    obtain ⟨h1, hframes1, hkernel1, hstart1, hview1⟩ := h.mapPageToRaw hpage
    obtain ⟨h', hrest⟩ := ih h1 hm
    refine ⟨h', hrest.frames.trans hframes1, hrest.kernel.trans hkernel1,
      hrest.start.trans hstart1, fun v' => ?_⟩
    obtain ⟨hp, hbase⟩ := present_base attr paddr (pte w 0 v) hattr
    have hzero : v + BitVec.ofNat 64 (0 * 0x1000) = v := by simp
    rcases hrest.view v' with ⟨i, hi, hs, hp', hbase'⟩ | ⟨hnot, hold⟩
    · refine .inl ⟨i + 1, by omega, ?_, hp', ?_⟩
      · rw [hs, add_page]
      · rw [hbase']
        congr 1
        omega
    · rw [hold, hview1]
      by_cases hs : slotOf 0 v' = slotOf 0 v
      · refine .inl ⟨0, by omega, by rw [hzero]; exact hs, ?_⟩
        rw [if_pos hs]
        exact ⟨hp, hbase⟩
      · refine .inr ⟨fun i hi => ?_, if_neg hs⟩
        cases i with
        | zero => rwa [hzero]
        | succ i =>
          rw [← add_page]
          exact hnot i (by omega)

theorem markAll_length {l : List Nat} {mem mem' : Memory} (h : markAll mem l = some mem') :
    mem.frames.length ≤ mem'.frames.length := by
  induction l generalizing mem with
  | nil =>
    cases h
    exact le_rfl
  | cons f l ih =>
    obtain ⟨mem1, hset, h⟩ := of_bind h
    obtain ⟨frames, hframes, heq⟩ := of_bind hset
    cases heq
    exact (setPageUsed_length hframes).trans (ih h)

/-- A range of pages, with their frames marked. -/
theorem Booting.mapRange {size : Nat} (h : Booting S w) (ho : Owned (· = 0) w)
    (hattr : attr.testBit 3 = false) (hphys : paddr % 0x1000 = 0) (hsize : size % 0x1000 = 0)
    (hm : MAP_RANGE w v paddr size attr = some w') :
    Booting S w' ∧ Owned (· = 0) w' ∧ w'.kernel = w.kernel ∧
      w'.pageHeapStart = w.pageHeapStart ∧
      ∃ w₁, MapsRange w w₁ v paddr (size / 0x1000) ∧ ∀ v', pte w' 0 v' = pte w₁ 0 v' := by
  obtain ⟨w₁, hto, hm⟩ := of_bind hm
  obtain ⟨mem, hmark, hm⟩ := of_bind hm
  cases hm
  have hpages : (size + 0xfff) / 0x1000 = size / 0x1000 := by omega
  rw [hpages] at hto
  obtain ⟨h1, hrange⟩ := h.mapRangeTo hattr hto
  rw [mapRange_eq] at hmark
  obtain ⟨-, hfree, hused, -⟩ := markAll_spec hmark
  simp only [hrange.frames] at hfree hused
  have hmem : ∀ i, i < size / 0x1000 → paddr / 0x1000 + i ∈ kernelPages paddr size := by
    intro i hi
    rw [kernelPages, List.mem_range'_1]
    omega
  have hlen := markAll_length hmark
  simp only [hrange.frames] at hlen
  refine ⟨h1.withFrames _, fun hb => ?_, hrange.kernel, hrange.start, w₁, hrange, fun _ => rfl⟩
  -- the frames of the range were not marked before, and each is in one slot now
  refine (ho (hlen.trans hb)).takeAll (fun x f => ∃ i < size / 0x1000,
      x = some (slotOf 0 (v + BitVec.ofNat 64 (i * 0x1000))) ∧ f = paddr / 0x1000 + i)
    ?_ ?_ ?_ (fun hf => (hused _).mpr (.inl hf)) ?_
  · rintro x f ⟨i, hi, -, rfl⟩
    exact hfree _ (hmem i hi)
  · rintro x y f ⟨i, -, rfl, rfl⟩ ⟨j, -, rfl, hij⟩
    rw [show i = j by omega]
  · intro x f hx
    cases x with
    | none => exact hx.elim
    | some s =>
      obtain ⟨hX, r, v', rfl, rfl, hp, rfl⟩ := hx
      show _ ∨ ∃ i < size / 0x1000, _ ∧ (pte w₁ 0 v').base = _
      rcases hrange.view v' with ⟨i, hi, hs, -, hbase⟩ | ⟨-, hold⟩
      · refine .inr ⟨i, hi, congrArg some hs, ?_⟩
        have hlt : paddr / 0x1000 + i < 2 ^ 40 :=
          (Used.lt ((hused _).mpr (.inr (hmem i hi)))).trans_le hb
        rw [hbase, baseOf, PAGE_SIZE]
        omega
      · refine .inl ⟨hX, 0, v', rfl, rfl, ?_, ?_⟩
        · rw [← hold]
          exact hp
        · rw [← hold]
          rfl
  · rintro x f ⟨i, hi, -, rfl⟩
    exact (hused _).mpr (.inr (hmem i hi))

/-! ## The first tables -/

theorem Plain.bootBlock_total (h : Plain k w) (hk : k < 16) :
    ∃ heap, Boot.bootBlock w
      = some ({ w with heap := heap }, k, w.pageHeapStart + k * PAGE_SIZE * 2) ∧
      Plain (k + 1) { w with heap := heap } := by
  obtain ⟨heap, ha, hplain⟩ := h.allocBlock hk
  have hlt : k * 2 < 32 := by omega
  refine ⟨heap, ?_, hplain⟩
  simp only [Boot.bootBlock, ha, bind_eq_bind, bind_some, assert_pos hlt]

/-- One level of a walk, where a table is missing and there is a block for it. -/
theorem getEntryCreate_create (init : Entry → Entry) (stop j : Nat) (v : VAddr) {t : Nat}
    {n : Node Entry} (hplain : Plain k w) (hk : k < 16) (hkt : k ≠ t) (hn : w.tables t = some n)
    (hi : n.next (index (stop + j + 1) v) = none)
    (hp : (n.entries (index (stop + j + 1) v)).p = false) :
    ∃ heap, getEntryCreate bootBlock init stop (j + 1) w t v
        = getEntryCreate bootBlock init stop j (World.link { w with heap := heap } t
          (index (stop + j + 1) v) k (init ((n.entries (index (stop + j + 1) v)).present
            (w.pageHeapStart + k * PAGE_SIZE * 2)))) k v ∧
      Plain (k + 1) { w with heap := heap } := by
  obtain ⟨heap, hb, hplain1⟩ := hplain.bootBlock_total hk
  have hT : setNext (update w.tables k (some (Node.blank Entry.zero))) t (index (stop + j + 1) v) k
      t = some { n with next := update n.next (index (stop + j + 1) v) (some k) } :=
    setNext_self (by rw [update_of_ne hkt.symm, hn])
  refine ⟨heap, ?_, hplain1⟩
  rw [getEntryCreate, hn]
  simp only [bind_eq_bind, bind_some, hi, assert_pos hp, hb, hT]
  rfl

/-- Three tables, one below the other, and the last one is blank. -/
structure Chain (w : World) (e e' : Entry) : Prop where
  root : w.tables 0 = some (oneSlot 511 e 1)
  second : w.tables 1 = some (oneSlot 511 e' 2)
  shared : w.tables 2 = some (Node.blank .zero)
  others : ∀ {t}, 3 ≤ t → w.tables t = none
  kernel : w.kernel.root = 0
  plain : Plain 3 w

namespace Chain

variable {e e' : Entry} (h : Chain w e e')
include h

theorem follow_cases {p : List Nat} {t : Nat} (hp : follow w.tables 0 p = some t) :
    (p = [] ∧ t = 0) ∨ (p = [511] ∧ t = 1) ∨ (p = [511, 511] ∧ t = 2) := by
  rcases follow_new_root h.root h.second hp with hp | hp | ⟨q, rfl, hq⟩
  · exact .inl hp
  · exact .inr (.inl hp)
  · cases q with
    | nil =>
      cases hq
      exact .inr (.inr ⟨rfl, rfl⟩)
    | cons i q =>
      rw [follow_cons h.shared] at hq
      cases hq

theorem sound : Sound w (· = 0) 2 := by
  refine ⟨h.kernel, ?_, ?_, ?_, ?_, ?_, ?_, ?_, ?_⟩
  · intro r hr
    rw [hr]
    exact follow_new_root_shared h.root h.second []
  · intro r p t hr hp
    rw [hr] at hp
    rcases h.follow_cases hp with ⟨-, rfl⟩ | ⟨-, rfl⟩ | ⟨-, rfl⟩
    · rw [h.root]
      rfl
    · rw [h.second]
      rfl
    · rw [h.shared]
      rfl
  · intro r r' p p' t hr hr' hp hp'
    rw [hr] at hp ⊢
    rw [hr'] at hp' ⊢
    rcases h.follow_cases hp with ⟨rfl, rfl⟩ | ⟨rfl, rfl⟩ | ⟨rfl, rfl⟩
    · rcases h.follow_cases hp' with ⟨rfl, -⟩ | ⟨-, hc⟩ | ⟨-, hc⟩
      · rfl
      · cases hc
      · cases hc
    · rcases h.follow_cases hp' with ⟨-, hc⟩ | ⟨rfl, -⟩ | ⟨-, hc⟩
      · cases hc
      · rfl
      · cases hc
    · rcases h.follow_cases hp' with ⟨-, hc⟩ | ⟨-, hc⟩ | ⟨rfl, -⟩
      · cases hc
      · cases hc
      · rfl
  · intro r p t hr hp
    rw [hr] at hp
    rcases h.follow_cases hp with ⟨rfl, -⟩ | ⟨rfl, -⟩ | ⟨rfl, -⟩ <;> simp
  · intro r p t n i hr hp hn hlen hnone
    rw [hr] at hp
    rcases h.follow_cases hp with ⟨-, rfl⟩ | ⟨-, rfl⟩ | ⟨-, rfl⟩
    · cases h.root.symm.trans hn
      exact oneSlot_absent hnone
    · cases h.second.symm.trans hn
      exact oneSlot_absent hnone
    · cases h.shared.symm.trans hn
      rfl
  · intro t ht
    have hlt : t < 3 := by
      by_contra hc
      rw [h.others (by omega)] at ht
      cases ht
    rw [h.plain.map, List.getElem?_replicate, if_pos hlt]
  · intro b hb
    rw [h.plain.pool] at hb
    exact absurd hb not_mem_nil
  · rw [h.plain.pool]
    exact List.nodup_nil

theorem names {B : Nat → Nat → Prop} (he : e.p = true ∧ B 1 e.base)
    (he' : e'.p = true ∧ B 2 e'.base) : Names B (· = 0) w := by
  refine ⟨fun {r p t n i u} hr hp hn hu => ?_⟩
  rw [hr] at hp
  rcases h.follow_cases hp with ⟨-, rfl⟩ | ⟨-, rfl⟩ | ⟨-, rfl⟩
  · cases h.root.symm.trans hn
    obtain ⟨rfl, rfl⟩ := oneSlot_next.mp hu
    simpa [oneSlot] using he
  · cases h.second.symm.trans hn
    obtain ⟨rfl, rfl⟩ := oneSlot_next.mp hu
    simpa [oneSlot] using he'
  · cases h.shared.symm.trans hn
    cases hu

theorem pte_eq (v : VAddr) : pte w 0 v = .zero := by
  refine pte_of_none ?_
  cases hf : follow w.tables 0 (path v) with
  | none => rfl
  | some t =>
    rcases h.follow_cases hf with ⟨hc, -⟩ | ⟨hc, -⟩ | ⟨hc, -⟩
    · cases congrArg List.length hc
    · cases congrArg List.length hc
    · cases congrArg List.length hc

end Chain

/-- The first walk builds the chain, and goes on from there. -/
theorem chain_of_walk (hn : w.tables 0 = some (Node.blank .zero))
    (hothers : ∀ {t}, 1 ≤ t → w.tables t = none) (hk : w.kernel.root = 0) (hplain : Plain 1 w) :
    ∃ w3 e e', Chain w3 e e' ∧ (e.p = true ∧ StaticAt w.pageHeapStart 1 e.base) ∧
      (e'.p = true ∧ StaticAt w.pageHeapStart 2 e'.base) ∧ w3.frames = w.frames ∧
      w3.kernel = w.kernel ∧ w3.pageHeapStart = w.pageHeapStart ∧
      getEntryCreate bootBlock (setAttributes 0x3) 0 3 w 0 Symbols.kernelVVga
        = getEntryCreate bootBlock (setAttributes 0x3) 0 3 w3 0 Symbols.kernelVVga := by
  obtain ⟨heap, hwalk, hplain1⟩ := getEntryCreate_create (setAttributes 0x3) 0 2 Symbols.kernelVVga
    hplain (by omega) (by decide) hn rfl rfl
  obtain ⟨E, hE⟩ : ∃ E, E =
    setAttributes 0x3 (Entry.zero.present (w.pageHeapStart + 1 * PAGE_SIZE * 2)) := ⟨_, rfl⟩
  obtain ⟨w₁, hw1⟩ : ∃ w₁, w₁ = World.link { w with heap := heap } 0 511 1 E := ⟨_, rfl⟩
  have hwalk : getEntryCreate bootBlock (setAttributes 0x3) 0 3 w 0 Symbols.kernelVVga
      = getEntryCreate bootBlock (setAttributes 0x3) 0 2 w₁ 1 Symbols.kernelVVga := by
    rw [hw1, hE]
    exact hwalk
  have hsame1 : w₁.frames = w.frames ∧ w₁.kernel = w.kernel ∧
      w₁.pageHeapStart = w.pageHeapStart := by
    rw [hw1]
    exact ⟨rfl, rfl, rfl⟩
  -- the second table
  have hn1 : w₁.tables 1 = some (Node.blank .zero) := by
    rw [hw1]
    exact link_new (by decide)
  have hroot1 : w₁.tables 0 = some (oneSlot 511 E 1) := by
    rw [hw1]
    exact link_at (by decide) hn
  have hothers1 : ∀ {t}, 2 ≤ t → w₁.tables t = none := by
    intro t ht
    rw [hw1, link_of_ne (by omega) (by omega)]
    exact hothers (by omega)
  have hplain1' : Plain 2 w₁ := by
    rw [hw1]
    exact { hplain1 with }
  obtain ⟨heap', hwalk', hplain2⟩ := getEntryCreate_create (setAttributes 0x3) 0 1
    Symbols.kernelVVga hplain1' (by omega) (by decide) hn1 rfl rfl
  obtain ⟨E', hE'⟩ : ∃ E', E' =
    setAttributes 0x3 (Entry.zero.present (w₁.pageHeapStart + 2 * PAGE_SIZE * 2)) := ⟨_, rfl⟩
  obtain ⟨w3, hw3⟩ : ∃ w3, w3 = World.link { w₁ with heap := heap' } 1 511 2 E' := ⟨_, rfl⟩
  have hchain : Chain w3 E E' := by
    rw [hw3]
    refine ⟨?_, link_at (by decide) hn1, link_new (by decide), fun ht => ?_, ?_, ?_⟩
    · rw [link_of_ne (by decide) (by decide)]
      exact hroot1
    · rw [link_of_ne (by omega) (by omega)]
      exact hothers1 (by omega)
    · exact (congrArg PageDirectory.root hsame1.2.1).trans hk
    · exact { hplain2 with }
  have hpath : follow w3.tables 0 (pathTo (0 + 1) 2 Symbols.kernelVVga) = some 2 :=
    follow_new_root_shared hchain.root hchain.second []
  have hsame3 : w3.frames = w.frames ∧ w3.kernel = w.kernel ∧
      w3.pageHeapStart = w.pageHeapStart := by
    rw [hw3]
    exact hsame1
  refine ⟨w3, E, E', hchain, ?_, ?_, hsame3.1, hsame3.2.1, hsame3.2.2, ?_⟩
  · obtain ⟨hp, hbase⟩ := present_base 0x3 (w.pageHeapStart + 1 * PAGE_SIZE * 2) .zero rfl
    rw [hE]
    exact ⟨hp, by omega, hbase⟩
  · obtain ⟨hp, hbase⟩ := present_base 0x3 (w.pageHeapStart + 2 * PAGE_SIZE * 2) .zero rfl
    rw [hE', hsame1.2.2]
    exact ⟨hp, by omega, hbase⟩
  · rw [hwalk, getEntryCreate_follow hpath, hw3, hE']
    exact hwalk'

/-- The root, and the tables that the page of the screen needs. -/
theorem boot_chain (l : Layout) : ∃ w pd w3, createPm l.world = some (w, pd) ∧
    Booting 2 w3 ∧ Plain 3 w3 ∧ (∀ v, pte w3 0 v = .zero) ∧ w3.frames = [] ∧
    w3.kernel = ⟨0, baseOf l.world.pageHeapStart⟩ ∧ w3.pageHeapStart = l.world.pageHeapStart ∧
    ∀ paddr attr, mapPageToRaw bootBlock { w with kernel := pd } pd.root Symbols.kernelVVga paddr
        attr = mapPageToRaw bootBlock w3 w3.kernel.root Symbols.kernelVVga paddr attr := by
  have hempty : Plain 0 l.world := ⟨rfl, rfl, rfl⟩
  obtain ⟨heap, ha, hplain⟩ := hempty.allocBlock (by omega)
  obtain ⟨w, hw⟩ : ∃ w : World, w = { l.world with
    heap := heap
    tables := update l.world.tables 0 (some (Node.blank .zero))
    kernel := ⟨0, (l.world.pageHeapStart + 0 * PAGE_SIZE * 2) / PAGE_SIZE % 2 ^ 40⟩ } := ⟨_, rfl⟩
  have hroot : w.tables 0 = some (Node.blank .zero) := by
    rw [hw]
    show update l.world.tables 0 _ 0 = _
    exact update_self ..
  have hothers : ∀ {t}, 1 ≤ t → w.tables t = none := by
    intro t ht
    rw [hw]
    show update l.world.tables 0 _ t = _
    rw [update_of_ne (Nat.ne_of_gt ht)]
    rfl
  obtain ⟨w3, e, e', hchain, he, he', hframes, hkernel, hstart, hwalk⟩ :=
    chain_of_walk hroot hothers (by rw [hw])
      (by rw [hw]; exact { hplain with })
  refine ⟨_, _, w3, by rw [createPm, ha]; rfl, ⟨hchain.sound, ?_, ⟨3, by omega, hchain.plain⟩, ?_⟩,
    hchain.plain, hchain.pte_eq, ?_, ?_, ?_, fun paddr attr => ?_⟩
  · rw [follow_cons hchain.root]
    rfl
  · rw [hstart]
    exact hchain.names he he'
  · rw [hframes, hw]
    rfl
  · rw [hkernel, hw, Nat.zero_mul]
    rfl
  · rw [hstart, hw]
  · rw [hchain.kernel]
    unfold mapPageToRaw mapPageToF
    rw [← hwalk, hw]

/-- The root and the page of the screen. -/
theorem boot_first {l : Layout} {pd : PageDirectory} (hpd : createPm l.world = some (w, pd))
    (hm : mapPageToRaw bootBlock { w with kernel := pd } pd.root Symbols.kernelVVga paddr attr
      = some w') :
    Booting 2 w' ∧ w'.frames = [] ∧ w'.kernel = ⟨0, baseOf l.world.pageHeapStart⟩ ∧
      w'.pageHeapStart = l.world.pageHeapStart ∧ ∀ v, pte w' 0 v =
        if slotOf 0 v = slotOf 0 Symbols.kernelVVga then
          setAttributes attr (Entry.zero.present paddr)
        else .zero := by
  obtain ⟨w0, pd0, w3, hpd0, h3, -, hzero, hframes, hkernel, hstart, hsame⟩ := boot_chain l
  cases hpd0.symm.trans hpd
  rw [hsame] at hm
  obtain ⟨h', hframes', hkernel', hstart', hview⟩ := h3.mapPageToRaw hm
  refine ⟨h', hframes'.trans hframes, hkernel'.trans hkernel, hstart'.trans hstart, fun v => ?_⟩
  rw [hview, hzero, hzero]

/-- The frame of the screen is the first to be marked. -/
theorem owned_first {frames : List Bool} {v : VAddr}
    (hmark : Paging.setPageUsed [] 0xB8 = some frames) (hview : ∀ v', pte w 0 v' =
      if slotOf 0 v' = slotOf 0 v then setAttributes ATTR_RW (Entry.zero.present 0xB8000)
      else .zero) : Owned (· = 0) { w with frames := frames } := by
  have hholds : ∀ {x f}, Holds (· = 0) (fun _ => False) (fun _ => False)
      { w with frames := frames } x f → x = some (slotOf 0 v) ∧ f = 0xB8 := by
    intro x f hx
    cases x with
    | none => exact hx.elim
    | some s =>
      obtain ⟨-, r, v', rfl, rfl, hp, rfl⟩ := hx
      have hp : (pte w 0 v').p = true := hp
      show _ ∧ (pte w 0 v').base = _
      rw [hview] at hp ⊢
      split at hp
      · rename_i hs
        rw [if_pos hs, hs]
        exact ⟨rfl, rfl⟩
      · cases hp
  intro _
  refine ⟨fun hx => ?_, fun hx hy => (hholds hx).1.trans (hholds hy).1.symm⟩
  rw [(hholds hx).2]
  exact ((setPageUsed_spec hmark).2 _).mpr (.inr rfl)

/-! ## The whole -/

theorem slotOf_page {v v' : VAddr} {r r' : Nat} (h : slotOf r v = slotOf r' v') :
    v.toNat / 0x1000 % 2 ^ 36 = v'.toNat / 0x1000 % 2 ^ 36 :=
  path_eq_iff.mp (slotOf_eq_iff.mp h).1

theorem ptrAlignSup_page (a : Nat) : KHeap.ptrAlignSup a 0x200000 % 0x1000 = 0 := by
  rw [KHeap.ptrAlignSup]
  omega

theorem heapPage_range (hb : b < 16) :
    heapPage b 0 = pageHeapBase + BitVec.ofNat 64 (2 * b * 0x1000) := by
  apply BitVec.eq_of_toNat_eq
  rw [heapPage_toNat (by omega) (by omega)]
  have hbase : pageHeapBase.toNat = 0xffffffffe0000000 := rfl
  simp only [BitVec.toNat_add, BitVec.toNat_ofNat]
  omega

/-- The static blocks are where the page heap takes them to be. -/
theorem MapsRange.static (h : MapsRange w w' pageHeapBase phys 32) (hb : b < 16) :
    (pte w' 0 (heapPage b 0)).p = true ∧
      (pte w' 0 (heapPage b 0)).base = baseOf (phys + b * PAGE_SIZE * 2) := by
  have hbase : pageHeapBase.toNat = 0xffffffffe0000000 := rfl
  rcases h.view (heapPage b 0) with ⟨i, hi, hs, hp, hat⟩ | ⟨hnot, -⟩
  · have hpage := slotOf_page hs
    rw [heapPage_toNat (by omega) (by omega)] at hpage
    simp only [BitVec.toNat_add, BitVec.toNat_ofNat] at hpage
    refine ⟨hp, ?_⟩
    rw [hat, PAGE_SIZE]
    congr 1
    omega
  · exact absurd (congrArg (slotOf 0) (heapPage_range hb)) (hnot (2 * b) (by omega))

theorem MapsRange.heap_apart (h : MapsRange w w' Symbols.heapBase phys 512)
    (hb : b < 16) : pte w' 0 (heapPage b 0) = pte w 0 (heapPage b 0) := by
  have hbase : Symbols.heapBase.toNat = 0xfffffffff0000000 := rfl
  rcases h.view (heapPage b 0) with ⟨i, hi, hs, -, -⟩ | ⟨-, hold⟩
  · have hpage := slotOf_page hs
    rw [heapPage_toNat (by omega) (by omega)] at hpage
    simp only [BitVec.toNat_add, BitVec.toNat_ofNat] at hpage
    omega
  · exact hold

/-- What is built in the end is wired: the frames that the entries name are now mapped. -/
theorem Booting.wired (h : Booting S w) (hbase : w.kernel.base = baseOf w.pageHeapStart)
    (hstatic : ∀ {b}, b < 16 → PageAt w b (baseOf (w.pageHeapStart + b * PAGE_SIZE * 2))) :
    Wired (· = 0) (fun r f => r = 0 ∧ f = w.kernel.base) S w ∧ w.heap.allocating = false := by
  obtain ⟨k, hle, hplain⟩ := h.plain
  refine ⟨⟨h.sound, ?_, fun hc => ⟨hc.1, ?_⟩, fun hr => ⟨_, hr, rfl⟩, ?_, fun hx => ?_, hstatic⟩,
    hplain.idle⟩
  · rw [hplain.map, length_replicate]
    omega
  · obtain ⟨rfl, rfl⟩ := hc
    have hat := hstatic (b := 0) (by omega)
    rwa [Nat.zero_mul, Nat.add_zero, ← hbase] at hat
  · refine h.names.mono fun _ _ hf => ?_
    obtain ⟨hlt, rfl⟩ := hf
    exact hstatic hlt
  · rw [hplain.pool] at hx
    exact absurd hx not_mem_nil

theorem MapsRange.present {n : Nat} (h : MapsRange w w' v phys n) (hn : 0 < n) :
    (pte w' 0 v).p = true := by
  rcases h.view v with ⟨i, -, -, hp, -⟩ | ⟨hnot, -⟩
  · exact hp
  · have hzero : v + BitVec.ofNat 64 (0 * 0x1000) = v := by simp
    exact absurd (congrArg (slotOf 0) hzero.symm) (hnot 0 hn)

/-- The kernel directory as `initKernelDirectory` leaves it. -/
structure Booted (w : World) : Prop where
  root : w.kernel.root = 0
  second : follow w.tables 0 [511] = some 1
  wired : Wired (· = 0) (fun r f => r = 0 ∧ f = w.kernel.base) 2 w
  idle : w.heap.allocating = false
  blocks : w.heap.map.length ≤ 16
  pool : w.heap.pool = []
  heap : (pte w 0 Symbols.heapBase).p = true
  owned : Owned (· = 0) w

/-- `initKernelDirectory`: the first directory is wired, and its frames are its own. -/
theorem initKernelDirectory_spec {l : Layout} (h : initKernelDirectory l = some w) : Booted w := by
  obtain ⟨⟨w0, pd⟩, hpd, h⟩ := of_bind h
  obtain ⟨w₁, hvga, h⟩ := of_bind h
  obtain ⟨frames, hmark, h⟩ := of_bind h
  obtain ⟨w2, htext, h⟩ := of_bind h
  obtain ⟨w3, hrodata, h⟩ := of_bind h
  obtain ⟨w4, hdata, h⟩ := of_bind h
  obtain ⟨w5, hstack, h⟩ := of_bind h
  obtain ⟨w6, hpages, hheap⟩ := of_bind h
  obtain ⟨b1, hframes1, hkernel1, hstart1, hview1⟩ := boot_first hpd hvga
  rw [hframes1] at hmark
  have ho1 := owned_first hmark hview1
  have halign := ptrAlignSup_page l.image.bssEnd
  obtain ⟨b2, ho2, hkernel2, hstart2, -⟩ :=
    (b1.withFrames frames).mapRange ho1 (by decide) (show 0x200000 % 0x1000 = 0 by omega)
      (show l.text * 0x1000 % 0x1000 = 0 by omega) htext
  obtain ⟨b3, ho3, hkernel3, hstart3, -⟩ := b2.mapRange ho2 (by decide)
    (show (0x200000 + l.text * 0x1000) % 0x1000 = 0 by omega)
    (show l.rodata * 0x1000 % 0x1000 = 0 by omega) hrodata
  obtain ⟨b4, ho4, hkernel4, hstart4, -⟩ := b3.mapRange ho3 (by decide)
    (show (0x200000 + l.text * 0x1000 + l.rodata * 0x1000) % 0x1000 = 0 by omega)
    (show l.data * 0x1000 % 0x1000 = 0 by omega) hdata
  obtain ⟨b5, ho5, hkernel5, hstart5, -⟩ :=
    b4.mapRange ho4 (by decide) (by omega) (by decide) hstack
  obtain ⟨b6, ho6, hkernel6, hstart6, w6', hrange6, hview6⟩ :=
    b5.mapRange ho5 (by decide) (by omega) (by decide) hpages
  obtain ⟨b, ho, hkernel, hstart, w', hrange, hview⟩ :=
    b6.mapRange ho6 (by decide) (by omega) (by decide) hheap
  have hkernel : w.kernel = ⟨0, baseOf l.world.pageHeapStart⟩ := by
    rw [hkernel, hkernel6, hkernel5, hkernel4, hkernel3, hkernel2]
    exact hkernel1
  have hstart : w.pageHeapStart = l.world.pageHeapStart := by
    rw [hstart, hstart6, hstart5, hstart4, hstart3, hstart2]
    exact hstart1
  have hstatic : ∀ {b}, b < 16 → PageAt w b (baseOf (w.pageHeapStart + b * PAGE_SIZE * 2)) := by
    intro b hb
    rw [PageAt, hkernel, hview, hrange.heap_apart hb, hview6, hstart]
    exact hrange6.static hb
  obtain ⟨hwired, hidle⟩ := b.wired (by rw [hkernel, hstart]) hstatic
  obtain ⟨k, hle, hplain⟩ := b.plain
  refine ⟨by rw [hkernel], b.second, hwired, hidle, ?_, hplain.pool, ?_, ho⟩
  · rw [hplain.map, length_replicate]
    exact hle
  · rw [hview]
    exact hrange.present (by decide)

end Flix.Boot

import Flix.Boot.Multiboot
import Flix.Memory.KHeapGrowth

/-!
# The boot information in the heap

The bootstrap code copies the information of the boot loader to the beginning of the
heap, 8 bytes in, and `KHeap::init` makes a used block of it. The block is taken to
start with its data 4 bytes in, so that it ends 4 bytes before the information does:
the header of the block behind is written over the end of the information.

These 4 bytes are the size of the end tag, which nobody reads. All others are in a
block that is in use and that nobody gives back. What is below the second block is
written by no operation, whatever the clients ask for: `Untouched` is the invariant.
-/

namespace Flix.Boot

open Bytes KHeap Runs

/-- Pointers that were returned are given back and written to. -/
def Allowed (s : KHeap.State) : Op → Prop
  | .kmalloc _ _ => True
  | .kfree p => p = 0 ∨ ∃ n, (p, n) ∈ s.live
  | .write p offset _ => ∃ n, (p, n) ∈ s.live ∧ offset < n

/-! ## What is written where -/

section Writes

variable {pages m m' : Mem} {h h' : Heap} {L size : Nat}

/-- The memories agree below `L`, as far as the heap goes. -/
def AgreeBelow (L : Nat) (m m' : Mem) : Prop := ∀ x, heapBase ≤ x → x < L → m' x = m x

theorem AgreeBelow.trans {m'' : Mem} (h : AgreeBelow L m m') (h' : AgreeBelow L m' m'') :
    AgreeBelow L m m'' := fun x h1 h2 => (h' x h1 h2).trans (h x h1 h2)

variable {b p : Nat} {r : Search}

theorem setUsed_agree {u : Bool} (hb : L ≤ b) : AgreeBelow L m (setUsed m b u) :=
  fun _ _ hx => setUsed_outside (.inl (hx.trans_le hb))

theorem agreeBelow_of_lt (hb : L ≤ b) (h : ∀ x < b, m' x = m x) : AgreeBelow L m m' :=
  fun x _ hx => h x (hx.trans_le hb)

/-- What a step of the heap does to the part below `L`: nothing. -/
structure Above (L : Nat) (h h' : Heap) : Prop where
  agree : AgreeBelow L h.mem h'.mem
  start : h'.heapStart = h.heapStart
  last : L ≤ h'.lastBlock
  stop : h.heapEnd < 2 ^ 64 → h'.heapEnd < 2 ^ 64

/-- A search that takes no block below `L`, and when it takes none, `P` holds of the last it
looked at. -/
def Behind (L : Nat) (P : Nat → Prop) : Search → Prop
  | .take b => L ≤ b
  | .split b => L ≤ b
  | .exhausted b => P b

theorem Behind.mono {P Q : Nat → Prop} (hr : Behind L P r) (h : ∀ b, P b → Q b) : Behind L Q r := by
  cases r with
  | take b => exact hr
  | split b => exact hr
  | exhausted b => exact h b hr

/-- The search takes no block below `L` once it is there. -/
theorem search_above : ∀ {fuel block ptr : Nat}, L ≤ ptr →
    search h size fuel block ptr = some r → Behind L (fun b => b = block ∨ L < h.heapEnd) r
  | 0, _, _, _, hs => by cases hs
  | fuel + 1, block, ptr, hptr, hs => by
    rw [search] at hs
    split at hs
    · rename_i hend
      obtain ⟨-, hs⟩ := of_assert hs
      obtain ⟨-, hs⟩ := of_assert hs
      split at hs
      · split at hs <;>
        · cases hs
          exact hptr
      · exact (search_above (by omega) hs).mono fun b _ => .inr (hptr.trans_lt hend)
    · cases hs
      exact .inl rfl

theorem mapPage_agree {a : Nat} (ha : L ≤ a ∨ a + KHeap.PAGE_SIZE ≤ heapBase) :
    AgreeBelow L m (mapPage pages m a) := by
  intro x h1 h2
  unfold mapPage
  rw [if_neg (by omega)]

/-- Where the next `n` pages go: behind `L`, or around the end of the address space and not as far
as the heap. -/
def PagesAway (L n : Nat) (h : Heap) : Prop :=
  L ≤ h.heapEnd ∧ h.heapEnd < 2 ^ 64 ∨ h.heapEnd + n * KHeap.PAGE_SIZE ≤ heapBase

theorem enlargeStep_above {n : Nat} (hn : n ≤ 2 ^ 20) (hlast : L ≤ h.lastBlock)
    (haway : PagesAway L (n + 1) h) (he : enlargeStep pages h = some h') :
    Above L h h' ∧ PagesAway L n h' := by
  obtain ⟨hend, hle, hstart, hsame, -⟩ := enlargeStep_cases he
  have haway' : PagesAway L n h' := by
    unfold PagesAway KHeap.PAGE_SIZE heapBase at haway
    unfold PagesAway KHeap.PAGE_SIZE heapBase
    rw [hend, KHeap.PAGE_SIZE]
    omega
  have hmap : AgreeBelow L h.mem (mapPage pages h.mem h.heapEnd) := by
    apply mapPage_agree
    refine haway.imp And.left fun hbelow => ?_
    rw [Nat.succ_mul] at hbelow
    omega
  have hlt : h'.heapEnd < 2 ^ 64 := by
    rw [hend]
    exact Nat.mod_lt _ (by decide)
  have hlast' := hlast.trans hle
  exact ⟨⟨hmap.trans (agreeBelow_of_lt hlast' hsame), hstart, hlast', fun _ => hlt⟩, haway'⟩

theorem Above.refl (hlast : L ≤ h.lastBlock) : Above L h h := ⟨fun _ _ _ => rfl, rfl, hlast, id⟩

theorem Above.trans {h'' : Heap} (h1 : Above L h h') (h2 : Above L h' h'') : Above L h h'' :=
  ⟨h1.agree.trans h2.agree, h2.start.trans h1.start, h2.last, h2.stop ∘ h1.stop⟩

theorem enlargeLoop_above : ∀ {n : Nat} {h h' : Heap}, n ≤ 2 ^ 20 → L ≤ h.lastBlock →
    PagesAway L n h → enlargeLoop pages n h = some h' → Above L h h'
  | 0, h, h', _, hlast, _, he => by
    cases he
    exact .refl hlast
  | n + 1, h, h', hn, hlast, haway, he => by
    obtain ⟨h1, hs, he⟩ := of_bind he
    obtain ⟨hstep, haway1⟩ := enlargeStep_above (by omega) hlast haway hs
    exact hstep.trans (enlargeLoop_above (by omega) hstep.last haway1 he)

theorem takeLast_above (hlast : L ≤ h.lastBlock) (ht : takeLast h size = some (h', p)) :
    Above L h h' := by
  obtain ⟨-, -, hend, hstart, -, hle, hsame⟩ := takeLast_cases ht
  exact ⟨agreeBelow_of_lt hlast hsame, hstart, hlast.trans hle, fun hlt => hend ▸ hlt⟩

theorem allocFrom_above (hlast : L ≤ h.lastBlock) (hlt : h.heapEnd < 2 ^ 64)
    (hr : Behind L (fun b => b = h.lastBlock → L < h.heapEnd) r)
    (ha : allocFrom pages h size r = some (h', p)) : Above L h h' ∧ L + HEADER_SIZE ≤ p := by
  cases r with
  | take b =>
    obtain ⟨-, ha⟩ := of_assert ha
    obtain ⟨rfl, rfl⟩ := Prod.mk.inj (Option.some.inj ha)
    exact ⟨⟨setUsed_agree hr, rfl, hlast, id⟩, Nat.add_le_add_right hr _⟩
  | split b =>
    obtain ⟨⟨m, first, second⟩, hs, ha⟩ := of_bind ha
    obtain ⟨-, rfl, rfl, hsame⟩ := splitBlock_cases hs
    obtain ⟨-, ha⟩ := of_assert ha
    obtain ⟨-, ha⟩ := of_assert ha
    obtain ⟨-, ha⟩ := of_assert ha
    obtain ⟨rfl, rfl⟩ := Prod.mk.inj (Option.some.inj ha)
    refine ⟨⟨(agreeBelow_of_lt hr hsame).trans (setUsed_agree hr), rfl, ?_, id⟩,
      Nat.add_le_add_right hr _⟩
    split
    · exact hr.trans (Nat.le_add_right _ _)
    · exact hlast
  | exhausted b =>
    obtain ⟨hb, ha⟩ := of_assert ha
    obtain ⟨h1, he, ha⟩ := of_bind ha
    obtain ⟨h2, hloop, he⟩ := of_bind he
    obtain ⟨-, he⟩ := of_assert he
    cases he
    have hn : neededPages h.mem b size ≤ 2 ^ 20 := by
      unfold neededPages
      simp only
      omega
    have hgrow := enlargeLoop_above hn hlast (.inl ⟨(hr hb).le, hlt⟩) hloop
    refine ⟨hgrow.trans (takeLast_above hgrow.last ha), ?_⟩
    rw [(takeLast_cases ha).1]
    exact Nat.add_le_add_right hgrow.last _

/-- `kmalloc` writes nothing below the second block, as long as the first one is in use. -/
theorem kmalloc_above (hstart : h.heapStart < L) (hlast : L ≤ h.lastBlock)
    (hlt : h.heapEnd < 2 ^ 64) (hused : getUsed h.mem h.heapStart = true)
    (hnext : h.heapStart + getSize h.mem h.heapStart = L)
    (hk : kmalloc pages h size = some (h', p)) : Above L h h' ∧ (p = 0 ∨ L + HEADER_SIZE ≤ p) := by
  unfold kmalloc at hk
  split at hk
  · obtain ⟨rfl, rfl⟩ := Prod.mk.inj (Option.some.inj hk)
    exact ⟨.refl hlast, .inl rfl⟩
  · obtain ⟨r, hs, ha⟩ := of_bind hk
    have hr : Behind L (fun b => b = h.lastBlock → L < h.heapEnd) r := by
      unfold searchAll at hs
      rw [search] at hs
      split at hs
      · obtain ⟨-, hs⟩ := of_assert hs
        obtain ⟨-, hs⟩ := of_assert hs
        rw [hused, hnext] at hs
        exact (search_above le_rfl hs).mono fun b hor hb => hor.resolve_left (by omega)
      · -- the heap ends before it starts: the last block looked at is null
        cases hs
        exact fun hb => by omega
    exact (allocFrom_above hlast hlt hr ha).imp id .inr

end Writes

/-! ## Over a run -/

section Runs

variable {m₀ mem : Mem} {L n : Nat} {s s' : KHeap.State}

/-- The invariant: below the second block, at `L`, everything is as it was in `m₀`, and nobody
has been given any of it. -/
structure Untouched (L : Nat) (m₀ : Mem) (s : KHeap.State) : Prop where
  agree : AgreeBelow L m₀ s.heap.mem
  start : s.heap.heapStart = heapBase
  last : L ≤ s.heap.lastBlock
  stop : s.heap.heapEnd < 2 ^ 64
  live : ∀ a ∈ s.live, L + HEADER_SIZE ≤ a.1

/-- What `init` leaves in front: a used block up to `L`. -/
structure FirstBlock (L : Nat) (m₀ : Mem) : Prop where
  room : heapBase + HEADER_SIZE ≤ L
  used : getUsed m₀ heapBase = true
  next : heapBase + getSize m₀ heapBase = L

theorem Untouched.above {h' : Heap} (hi : Untouched L m₀ s) (ha : Above L s.heap h')
    {live : List (Nat × Nat)} (hlive : ∀ a ∈ live, L + HEADER_SIZE ≤ a.1) :
    Untouched L m₀ ⟨h', live⟩ :=
  ⟨hi.agree.trans ha.agree, ha.start.trans hi.start, ha.last, ha.stop hi.stop, hlive⟩

theorem Untouched.header_eq (hi : Untouched L m₀ s) (hf : FirstBlock L m₀) :
    ∀ x, heapBase ≤ x → x < heapBase + 4 → s.heap.mem x = m₀ x :=
  fun x h1 h2 => hi.agree x h1 (h2.trans_le hf.room)

theorem Untouched.step {a : Op} (hf : FirstBlock L m₀) (hi : Untouched L m₀ s) (ha : Allowed s a)
    (hs : KHeap.step s a = some s') : Untouched L m₀ s' := by
  cases a with
  | kmalloc size pages =>
    obtain ⟨⟨h', p⟩, hk, hs⟩ := of_bind hs
    cases hs
    have hroom := hf.room
    have hsame := hi.header_eq hf
    obtain ⟨habove, hp⟩ := kmalloc_above
      (by rw [hi.start]; unfold HEADER_SIZE at hroom; omega) hi.last hi.stop
      (by rw [hi.start, getUsed_congr hsame, hf.used])
      (by rw [hi.start, getSize_congr hsame, hf.next]) hk
    refine hi.above habove ?_
    split
    · exact hi.live
    · rename_i hne
      intro a ha
      obtain rfl | ha := mem_cons.mp ha
      · exact hp.resolve_left hne
      · exact hi.live a ha
  | kfree p =>
    cases hs
    refine hi.above ?_ fun a ha => hi.live a (List.mem_filter.mp ha).1
    unfold kfree
    split
    · exact .refl hi.last
    · rename_i hne
      obtain ⟨n, hp⟩ := Or.resolve_left ha hne
      have hle := hi.live _ hp
      exact ⟨setUsed_agree (by omega), rfl, hi.last, id⟩
  | write p offset v =>
    cases hs
    obtain ⟨n, hp, -⟩ := ha
    have hle : L + HEADER_SIZE ≤ p := hi.live _ hp
    have hagree : AgreeBelow L s.heap.mem (writeLE s.heap.mem (p + offset) 1 v.toNat) :=
      fun x _ hx => writeLE_outside (.inl (by omega))
    exact { hi with agree := hi.agree.trans hagree }

/-- The information of `n` bytes at `a`, copied to the beginning of the heap. -/
structure Copied (orig : Mem) (a n : Nat) (mem : Mem) : Prop where
  fits : heapBase + 8 + n ≤ 2 ^ 64
  copy : ∀ i < n, mem (heapBase + 8 + i) = orig (a + i)

/-! The copy is made before there are page tables, by a loop over 32-bit registers that compares
them as signed numbers. -/

/-- A register as the comparison sees it. -/
def signed32 (x : Nat) : Int := if x < 2 ^ 31 then x else x - 2 ^ 32

/-- `.LMBCopyFLoop`. -/
def lmbCopyLoop (ecx : Nat) : Nat → Nat → Nat → Mem → Option Mem
  | 0, _, _, _ => none
  | fuel + 1, ebx, edx, m =>
    if signed32 ecx ≤ signed32 ebx then some m
    else lmbCopyLoop ecx fuel ((ebx + 1) % 2 ^ 32) ((edx + 1) % 2 ^ 32)
      (writeLE m edx 1 (m ebx).toNat)

/-- `.LMBCopyF`, with the information at `ebx` and the heap at `heapStart` of physical memory. -/
def lmbCopy (m : Mem) (ebx heapStart fuel : Nat) : Option Mem :=
  lmbCopyLoop ((readLE m ebx 4 + ebx) % 2 ^ 32) fuel ebx (heapStart + 8) m

/-- What is left of the copy, with the source below 2 GB and no byte of it overwritten. -/
theorem lmbCopyLoop_copies {ecx : Nat} (hlow : ecx < 2 ^ 31) : ∀ {k ebx edx : Nat} {m : Mem},
    ebx + k = ecx → edx + k < 2 ^ 32 → edx ≤ ebx ∨ ebx + k ≤ edx →
    ∃ m', lmbCopyLoop ecx (k + 1) ebx edx m = some m' ∧ (∀ i < k, m' (edx + i) = m (ebx + i)) ∧
      ∀ x, x < edx ∨ edx + k ≤ x → m' x = m x
  | 0, ebx, edx, m, he, _, _ => by
    obtain rfl : ebx = ecx := he
    exact ⟨m, by rw [lmbCopyLoop, if_pos le_rfl], fun i hi => absurd hi (Nat.not_lt_zero i),
      fun _ _ => rfl⟩
  | k + 1, ebx, edx, m, he, hd, hs => by
    have hgo : ¬ signed32 ecx ≤ signed32 ebx := by
      unfold signed32
      omega
    obtain ⟨m', hm', hcopy, hrest⟩ := lmbCopyLoop_copies hlow (show (ebx + 1) + k = ecx by omega)
      (show (edx + 1) + k < 2 ^ 32 by omega) (by omega)
    refine ⟨m', ?_, fun i hi => ?_, fun x hx => ?_⟩
    · rw [lmbCopyLoop, if_neg hgo, Nat.mod_eq_of_lt (by omega), Nat.mod_eq_of_lt (by omega), hm']
    · rcases i with _ | i
      · rw [hrest _ (by omega)]
        unfold writeLE
        simp
      · have hi := hcopy i (by omega)
        rw [Nat.add_right_comm, Nat.add_right_comm ebx] at hi
        rw [← Nat.add_assoc, ← Nat.add_assoc, hi, writeLE_outside (by omega)]
    · rw [hrest x (by omega), writeLE_outside (by omega)]

/-- The bootstrap code makes the copy, where the first 2 MB of the heap are mapped to
`heapStart`. -/
theorem lmbCopy_copied {orig : Mem} {a heapStart : Nat} (hsize : readLE orig a 4 = n)
    (hlow : a + n < 2 ^ 31) (hroom : heapStart + 0x200000 < 2 ^ 32) (hfits : 8 + n ≤ 0x200000)
    (haway : heapStart + 8 ≤ a ∨ a + n ≤ heapStart + 8) :
    ∃ phys, lmbCopy orig a heapStart (n + 1) = some phys ∧
      ∀ mem, (∀ x < 0x200000, mem (heapBase + x) = phys (heapStart + x)) → Copied orig a n mem := by
  have hecx : (readLE orig a 4 + a) % 2 ^ 32 = a + n := by omega
  obtain ⟨phys, hloop, hcopy, -⟩ := lmbCopyLoop_copies hlow rfl
    (show heapStart + 8 + n < 2 ^ 32 by omega) haway
  refine ⟨phys, ?_, fun mem hmap => ⟨by unfold heapBase; omega, fun i hi => ?_⟩⟩
  · rw [lmbCopy, hecx, hloop]
  · rw [Nat.add_assoc, hmap _ (by omega), ← Nat.add_assoc]
    exact hcopy i hi

/-- `init` takes the information as its first block, but for the last 4 bytes. -/
theorem init_firstBlock (h16 : 16 ≤ n) (h8 : n % 8 = 0) (hfits : heapBase + 8 + n ≤ 2 ^ 64)
    (hsize : bootSize mem = n) :
    ∃ h0, init mem = some h0 ∧ FirstBlock (heapBase + n + 4) h0.mem ∧
      Untouched (heapBase + n + 4) h0.mem ⟨h0, []⟩ ∧
      ∀ x, heapBase + 4 ≤ x → x < heapBase + n + 4 → h0.mem x = mem x := by
  have hn : n ≤ 0xffffff8 := by
    unfold heapBase at hfits
    omega
  have hblock : (intAlignSup n BLOCK_ALIGN + HEADER_SIZE) % 2 ^ 32 = n + 4 := by
    unfold intAlignSup BLOCK_ALIGN HEADER_SIZE
    omega
  have hmin : BLOCK_MIN_SIZE < n + 4 := by
    unfold BLOCK_MIN_SIZE HEADER_SIZE
    omega
  have hptr : ptrAlignSup (heapBase + HEADER_SIZE) 8 = heapBase + 8 := by decide
  obtain ⟨m1, e1, s1, -, f1⟩ := setSize_spec (m := mem) (b := heapBase) (n := n + 4)
    (by unfold BLOCK_ALIGN; omega) (by omega)
  obtain ⟨m2, e2, -, -, f2⟩ := setSize_spec
    (b := heapBase + (n + 4)) (n := sub32 0x200000 (n + 4))
    (by unfold BLOCK_ALIGN sub32; omega) (by unfold sub32; omega)
  -- the second block is written behind the first
  have hsame : ∀ x, x < heapBase + n + 4 →
      setUsed m2 (heapBase + (n + 4)) false x = setUsed m1 heapBase true x := by
    intro x hx
    rw [setUsed_outside (by omega), f2 x (by omega)]
  have hheader : ∀ x, heapBase ≤ x → x < heapBase + 4 →
      setUsed m2 (heapBase + (n + 4)) false x = setUsed m1 heapBase true x :=
    fun x _ hx => hsame x (by omega)
  refine ⟨⟨setUsed m2 (heapBase + (n + 4)) false, heapBase, heapBase + 0x200000,
    heapBase + (n + 4)⟩, ?_, ⟨?_, ?_, ?_⟩, ⟨fun _ _ _ => rfl, rfl, ?_, ?_, ?_⟩, ?_⟩
  · unfold init
    have hb : readLE mem (heapBase + 8) 4 = n := hsize
    simp only [hptr, hb, hblock, assert_pos hmin, e1, e2, bind_eq_bind, bind_some]
  · unfold HEADER_SIZE
    omega
  · rw [getUsed_congr hheader, getUsed_setUsed]
  · rw [getSize_congr hheader, getSize_setUsed, s1, Nat.add_assoc]
  · exact le_of_eq (Nat.add_assoc _ _ _)
  · show heapBase + 0x200000 < 2 ^ 64
    decide
  · exact fun a ha => absurd ha not_mem_nil
  · intro x h1 h2
    show setUsed m2 (heapBase + (n + 4)) false x = mem x
    rw [hsame x h2, setUsed_outside (by omega), f1 x (by omega)]

end Runs

/-! ## The walk over the tags -/

section Tags

variable {orig m : Mem} {a a' n : Nat} {tags : List Nat}

/-- What is seen of a tag: its type, its size and its payload. -/
structure Visit where
  type : Nat
  size : Nat
  payload : List UInt8
  deriving DecidableEq

def visit (m : Mem) (tag : Nat) : Visit where
  type := tagType m tag
  size := tagSize m tag
  payload := (List.range (tagSize m tag - 8)).map fun i => m (tag + 8 + i)

/-- What the loop of `handle` goes through, from the information at `mboot`. -/
def visits (m : Mem) (mboot fuel : Nat) : Option (List Visit) :=
  handleLoop m (fun l tag => some (l ++ [visit m tag])) fuel (mboot + headerSize) []

/-- The information at `a'` in `m` is that at `a` in `orig`, but for the size in front and the last
4 bytes. -/
structure SameTags (orig : Mem) (a : Nat) (m : Mem) (a' n : Nat) : Prop where
  aligned : a' % 8 = 0
  inside : a' + n ≤ 2 ^ 64
  same : ∀ i, 8 ≤ i → i + 4 < n → m (a' + i) = orig (a + i)

variable {i : Nat}

theorem SameTags.readLE_eq (hs : SameTags orig a m a' n) {k : Nat} (h8 : 8 ≤ i)
    (hk : i + k + 4 ≤ n) : readLE m (a' + i) k = readLE orig (a + i) k := by
  refine readLE_copy fun j hj => ?_
  rw [Nat.add_assoc, Nat.add_assoc]
  exact hs.same (i + j) (by omega) (by omega)

theorem SameTags.tagType_eq (hs : SameTags orig a m a' n) (h8 : 8 ≤ i)
    (hn : i + 8 ≤ n) : tagType m (a' + i) = tagType orig (a + i) := hs.readLE_eq h8 (by omega)

theorem SameTags.visit_eq (hs : SameTags orig a m a' n) (h8 : 8 ≤ i)
    (hsize : 8 ≤ tagSize orig (a + i)) (hn : i + tagSize orig (a + i) + 8 ≤ n) :
    visit m (a' + i) = visit orig (a + i) := by
  have hs' : tagSize m (a' + i) = tagSize orig (a + i) := by
    unfold tagSize
    rw [Nat.add_assoc]
    exact hs.readLE_eq (by omega) (by omega)
  unfold visit
  rw [hs.tagType_eq h8 (by omega), hs']
  congr 1
  refine List.map_congr_left fun j hj => ?_
  have hj := List.mem_range.mp hj
  rw [Nat.add_assoc, Nat.add_assoc, Nat.add_assoc, Nat.add_assoc]
  exact hs.same _ (by omega) (by omega)

/-- The next tag is the next multiple of 8, counted from the beginning of the information. -/
theorem nextTag_offset (ha : a % 8 = 0) (hi : a + i + tagSize m (a + i) + 7 < 2 ^ 64) :
    nextTag m (a + i) = a + (i + tagSize m (a + i) + 7) / 8 * 8 := by
  unfold nextTag ptrAlignSup
  omega

/-- The walk, from the tag at `i` on. The fuel counts bytes, of which a tag has some. -/
theorem handleLoop_chain (ha : a % 8 = 0) (hin : a + n ≤ 2 ^ 64) (h16 : 16 ≤ n)
    (hs : SameTags orig a m a' n) : ∀ {tags : List Nat} {i fuel : Nat} {acc : List Visit},
    TagChain orig (a + i) tags (a + n - 8) → 8 ≤ i → n - i ≤ fuel →
    handleLoop m (fun l tag => some (l ++ [visit m tag])) fuel (a' + i) acc
      = some (acc ++ tags.map (visit orig))
  | [], i, fuel, acc, hc, h8, hf => by
    obtain ⟨hend, htype, -⟩ := hc
    obtain ⟨f, rfl⟩ : ∃ f, fuel = f + 1 := ⟨fuel - 1, by omega⟩
    rw [handleLoop, hs.tagType_eq h8 (by omega), if_neg (not_not.mpr htype), List.map_nil,
      append_nil]
  | t :: tags, i, fuel, acc, hc, h8, hf => by
    obtain ⟨rfl, htype, hsize, hle, hc⟩ := hc
    have hvisit := hs.visit_eq h8 hsize (by omega)
    have hsize' : tagSize m (a' + i) = tagSize orig (a + i) := congrArg Visit.size hvisit
    have hinside := hs.inside
    rw [nextTag_offset ha (by omega)] at hc
    obtain ⟨f, rfl⟩ : ∃ f, fuel = f + 1 := ⟨fuel - 1, by omega⟩
    rw [handleLoop, hs.tagType_eq h8 (by omega), if_pos htype]
    simp only [bind_eq_bind, bind_some]
    rw [nextTag_offset hs.aligned (by omega), hsize', hvisit,
      handleLoop_chain ha hin h16 hs hc (by omega) (by omega), List.map_cons, append_assoc,
      List.singleton_append]

theorem visits_eq (hw : WellFormed orig a n tags) (hs : SameTags orig a m a' n) :
    visits m a' n = some (tags.map (visit orig)) :=
  handleLoop_chain hw.aligned hw.inside hw.large hs hw.chain le_rfl (Nat.sub_le _ _)

/-- Each tag starts at a multiple of 8, and so does the last. -/
theorem TagChain.aligned {e : Nat} : ∀ {tags : List Nat} {t : Nat}, TagChain m t tags e →
    t % 8 = 0 → e % 8 = 0
  | [], t, hc, ht => hc.1 ▸ ht
  | u :: tags, t, hc, _ => TagChain.aligned hc.2.2.2.2 (by unfold nextTag ptrAlignSup; omega)

theorem WellFormed.size_mod (hw : WellFormed m a n tags) : n % 8 = 0 := by
  have hend := hw.chain.aligned (by unfold headerSize; have := hw.aligned; omega)
  have h16 := hw.large
  have ha := hw.aligned
  omega

end Tags

/--
**The boot information survives the heap.** Whatever clients do with the heap, the walk over the
information in it sees the tags of the original, and stops behind the last.
-/
theorem boot_information_survives {orig mem : Mem} {a n : Nat} {tags : List Nat}
    (hw : WellFormed orig a n tags) (hc : Copied orig a n mem) :
    visits orig a n = some (tags.map (visit orig)) ∧
    ∃ h₀, init mem = some h₀ ∧ ∀ s, Reach KHeap.step Allowed ⟨h₀, []⟩ s →
      visits s.heap.mem (heapBase + 8) n = some (tags.map (visit orig)) := by
  refine ⟨visits_eq hw ⟨hw.aligned, hw.inside, fun _ _ _ => rfl⟩, ?_⟩
  have h16 := hw.large
  have hsize : bootSize mem = n := by
    rw [← hw.size]
    exact readLE_copy fun i hi => hc.copy i (by omega)
  obtain ⟨h₀, hinit, hfirst, hstart, hcopy⟩ := init_firstBlock h16 hw.size_mod hc.fits hsize
  refine ⟨h₀, hinit, fun s hs => visits_eq hw ⟨by decide, hc.fits, fun i h₁ h₂ => ?_⟩⟩
  have hinv : Untouched (heapBase + n + 4) h₀.mem s :=
    hs.invariant hstart fun _ _ _ hi ha hu => hi.step hfirst ha hu
  rw [hinv.agree _ (by omega) (by omega), hcopy _ (by omega) (by omega)]
  exact hc.copy i (by omega)

/-- Information with one tag, of 9 bytes, at address `0x1000`. -/
def oneTag : Mem := fun x =>
  ([32, 0, 0, 0, 0, 0, 0, 0, 1, 0, 0, 0, 9, 0, 0, 0, 65, 0, 0, 0, 0, 0, 0, 0, 0, 0, 0, 0, 8] :
    List UInt8).getD (x - 0x1000) 0

theorem lmbCopy_copied_oneTag :
    ∃ phys, lmbCopy oneTag 0x1000 0x200000 33 = some phys ∧
      ∀ mem, (∀ x < 0x200000, mem (heapBase + x) = phys (0x200000 + x)) →
        Copied oneTag 0x1000 32 mem :=
  lmbCopy_copied (by decide) (by decide) (by decide) (by decide) (by decide)

theorem oneTag_wellFormed : WellFormed oneTag 0x1000 32 [0x1008] where
  aligned := by decide
  inside := by decide
  size := by decide
  large := by decide
  chain := ⟨rfl, by decide, by decide, by decide, by decide, by decide, by decide⟩

theorem boot_information_survives_oneTag :
    visits oneTag 0x1000 32 = some [⟨1, 9, [65]⟩] ∧
    ∃ h₀, init (fun x => oneTag (x - (heapBase + 8) + 0x1000)) = some h₀ ∧
      ∀ s, Reach KHeap.step Allowed ⟨h₀, []⟩ s →
        visits s.heap.mem (heapBase + 8) 32 = some [⟨1, 9, [65]⟩] :=
  boot_information_survives oneTag_wellFormed
    ⟨by decide, fun i _ => by rw [Nat.add_sub_cancel_left, Nat.add_comm]⟩

end Flix.Boot

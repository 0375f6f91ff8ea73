import Flix.Boot.Multiboot
import Flix.Paging.Frames

/-!
# The memory that must not be given out

`prepareMemory` marks frames one by one, and a frame that is marked already stops the
kernel. All its loops mark a list of frames that the information determines, so that
`markAll` is the only one that is reasoned about: it succeeds when the list has no
frame twice and none that was in use, and then these are in use and no others.

What is marked for a range of addresses is not always what it touches. The base is
rounded down and the length is rounded up, each for itself, and when the offset of the
base and the length together go over the end of a page, the last frame is left out.
-/

namespace Flix.Boot

open Bytes KHeap Paging

/-! ## Marking frames -/

section Mark

variable {mem mem' : Memory} {l : List Nat}

/-- The counter is right. -/
def Memory.Counted (mem : Memory) : Prop := mem.usedPageCount = mem.frames.count true

def markAll (mem : Memory) (l : List Nat) : Option Memory := l.foldlM Memory.setPageUsed mem

theorem markAll_append (l l' : List Nat) :
    markAll mem (l ++ l') = (markAll mem l).bind fun mem => markAll mem l' := List.foldlM_append

/-- The bitmap once it reaches up to `f`. -/
def grown (frames : List Bool) (f : Nat) : List Bool :=
  if frames.length ≤ f then
    frames ++ List.replicate ((f + 1 + 15) / 16 * 16 - frames.length) false
  else frames

theorem lt_length_grown (frames : List Bool) (f : Nat) : f < (grown frames f).length := by
  unfold grown
  split
  · rw [length_append, length_replicate]
    omega
  · omega

variable {frames : List Bool} {f : Nat}

theorem used_grown (j : Nat) : Used (grown frames f) j ↔ Used frames j := by
  unfold grown
  split
  · exact used_append_false j
  · rfl

theorem count_grown (frames : List Bool) (f : Nat) :
    (grown frames f).count true = frames.count true := by
  unfold grown
  split
  · rw [List.count_append, List.count_replicate]
    rfl
  · rfl

theorem setPageUsed_free (h : ¬ Used frames f) :
    setPageUsed frames f = some ((grown frames f).set f true) := by
  have hlt := lt_length_grown frames f
  have hfree : (grown frames f)[f]? = some false := by
    rw [← used_grown, Used, List.getElem?_eq_getElem hlt] at h
    rw [List.getElem?_eq_getElem hlt]
    simpa using h
  show (Flix.assert (f < (grown frames f).length)).bind (fun _ =>
    (Flix.assert ((grown frames f)[f]? = some false)).bind fun _ =>
      some ((grown frames f).set f true)) = _
  rw [assert_pos hlt, bind_some, assert_pos hfree, bind_some]

theorem count_set_grown (h : ¬ Used frames f) :
    ((grown frames f).set f true).count true = frames.count true + 1 := by
  have hlt := lt_length_grown frames f
  have hfree : (grown frames f)[f] = false := by
    rw [← used_grown, Used, List.getElem?_eq_getElem hlt] at h
    simpa using h
  rw [List.count_set hlt, hfree, count_grown]
  rfl

theorem Memory.setPageUsed_spec (h : mem.setPageUsed f = some mem') :
    ¬ Used mem.frames f ∧ (∀ j, Used mem'.frames j ↔ Used mem.frames j ∨ j = f) ∧
      (mem.Counted → mem'.Counted) := by
  obtain ⟨frames, hset, h⟩ := of_bind h
  cases h
  obtain ⟨hnew, hused⟩ := Paging.setPageUsed_spec hset
  refine ⟨hnew, hused, fun hc => ?_⟩
  rw [setPageUsed_free hnew] at hset
  cases hset
  exact (congrArg (· + 1) hc).trans (count_set_grown hnew).symm

/-- What marking a list does, and that there is nothing in the list that forbids it. -/
theorem markAll_spec : ∀ {l : List Nat} {mem mem' : Memory}, markAll mem l = some mem' →
    l.Nodup ∧ (∀ f ∈ l, ¬ Used mem.frames f) ∧
      (∀ j, Used mem'.frames j ↔ Used mem.frames j ∨ j ∈ l) ∧ (mem.Counted → mem'.Counted)
  | [], mem, mem', h => by
    cases h
    exact ⟨List.nodup_nil, fun f hf => absurd hf not_mem_nil, fun j => by simp, id⟩
  | f :: l, mem, mem', h => by
    obtain ⟨mem1, hset, h⟩ := of_bind h
    obtain ⟨hnew, hused, hcount⟩ := Memory.setPageUsed_spec hset
    obtain ⟨hnodup, hfree, hused', hcount'⟩ := markAll_spec h
    have hf : f ∉ l := fun hf => hfree f hf ((hused f).mpr (.inr rfl))
    refine ⟨nodup_cons.mpr ⟨hf, hnodup⟩, fun g hg => ?_, fun j => ?_, hcount' ∘ hcount⟩
    · obtain rfl | hg := mem_cons.mp hg
      · exact hnew
      · exact fun hu => hfree g hg ((hused g).mpr (.inl hu))
    · rw [hused', hused, mem_cons, or_assoc]

/-- A list without repetitions of frames that are not in use can be marked. -/
theorem markAll_total : ∀ {l : List Nat} {mem : Memory}, l.Nodup →
    (∀ f ∈ l, ¬ Used mem.frames f) → ∃ mem', markAll mem l = some mem'
  | [], mem, _, _ => ⟨mem, rfl⟩
  | f :: l, mem, hnodup, hfree => by
    obtain ⟨hf, hnodup⟩ := nodup_cons.mp hnodup
    have hset : mem.setPageUsed f
        = some ⟨(grown mem.frames f).set f true, mem.usedPageCount + 1⟩ := by
      unfold Memory.setPageUsed
      rw [setPageUsed_free (hfree f mem_cons_self)]
      rfl
    have hfree' : ∀ g ∈ l, ¬ Used ((grown mem.frames f).set f true) g := by
      intro g hg hu
      rcases ((Memory.setPageUsed_spec hset).2.1 g).mp hu with hu | rfl
      · exact hfree g (mem_cons_of_mem _ hg) hu
      · exact hf hg
    obtain ⟨mem', hmem'⟩ : ∃ mem',
        markAll ⟨(grown mem.frames f).set f true, mem.usedPageCount + 1⟩ l = some mem' :=
      markAll_total hnodup hfree'
    exact ⟨mem', by rw [markAll, foldlM_cons, hset]; exact hmem'⟩

/-! How far the bitmap goes: it grows by groups of 16. -/

theorem setPageUsed_length_le {B : Nat} {frames' : List Bool} (h16 : 16 ∣ B) (hf : f < B)
    (hlen : frames.length ≤ B) (h : setPageUsed frames f = some frames') : frames'.length ≤ B := by
  rw [setPageUsed_free (Paging.setPageUsed_spec h).1] at h
  cases h
  rw [List.length_set, grown]
  split
  · rw [length_append, length_replicate]
    omega
  · exact hlen

theorem markAll_length_le {B : Nat} (h16 : 16 ∣ B) : ∀ {l : List Nat} {mem mem' : Memory},
    (∀ f ∈ l, f < B) → mem.frames.length ≤ B → markAll mem l = some mem' → mem'.frames.length ≤ B
  | [], _, _, _, hlen, h => by
    cases h
    exact hlen
  | f :: l, mem, _, hl, hlen, h => by
    obtain ⟨mem1, hset, h⟩ := of_bind h
    obtain ⟨frames, hframes, hset⟩ := of_bind hset
    cases hset
    exact markAll_length_le h16 (fun g hg => hl g (mem_cons_of_mem _ hg))
      (setPageUsed_length_le h16 (hl f mem_cons_self) hlen hframes) h

end Mark

/-! ## Ranges of addresses -/

/-- The range of `length` bytes from `base` on. -/
structure Range where
  base : Nat
  length : Nat
  deriving DecidableEq

/-- Its first page, as it is rounded. -/
def Range.page (r : Range) : Nat := r.base / 0x1000

/-- The number of its pages, as it is rounded. -/
def Range.pages (r : Range) : Nat := (r.length + 0xfff) % 2 ^ 64 / 0x1000

/-- The pages that are marked for it. -/
def Range.marks (r : Range) : List Nat := List.range' r.page r.pages

/-- A byte of the range is in the frame. -/
def Range.Touches (r : Range) (f : Nat) : Prop :=
  0 < r.length ∧ r.base < (f + 1) * 0x1000 ∧ f * 0x1000 < r.base + r.length

instance (r : Range) (f : Nat) : Decidable (r.Touches f) := inferInstanceAs (Decidable (_ ∧ _))

variable {r : Range} {f : Nat}

theorem Range.mem_marks : f ∈ r.marks ↔ r.page ≤ f ∧ f < r.page + r.pages := List.mem_range'_1

theorem Range.touches_of_marks (h : f ∈ r.marks) : r.Touches f := by
  obtain ⟨hlo, hhi⟩ := Range.mem_marks.mp h
  unfold Range.page at hlo hhi
  unfold Range.pages at hhi
  unfold Range.Touches
  omega

/-- The frame that is left out is the one behind the marks, when the offset in the first page
and the length together need one page more than the length. -/
theorem Range.touches_iff (hlt : r.length + 0xfff < 2 ^ 64) : r.Touches f ↔ f ∈ r.marks ∨
      f = r.page + r.pages ∧ 0 < r.length ∧
        r.pages * 0x1000 < r.base % 0x1000 + r.length := by
  rw [Range.mem_marks]
  unfold Range.Touches Range.page Range.pages
  omega

/-! ## What the information says -/

section Info

variable {m : Mem} {a n : Nat} {tags : List Nat} {mem mem' : Memory}

/-- The entries of a memory map. -/
def entries (m : Mem) (map : Nat) : List Nat :=
  List.range' (map + 16) ((tagSize m map - 16) / mapEntrySize m map) (mapEntrySize m map)

def entryRange (m : Mem) (entry : Nat) : Range := ⟨baseAddr m entry, entryLength m entry⟩

def moduleRange (m : Mem) (mod : Nat) : Range := ⟨modStart m mod, modEnd m mod - modStart m mod⟩

/-- The ranges of a tag that are to be reserved: memory that is not available, and modules. -/
def tagRanges (m : Mem) (tag : Nat) : List Range :=
  if tagType m tag = 3 then [moduleRange m tag]
  else if tagType m tag = 6 then
    ((entries m tag).filter fun e => entryType m e ≠ 1).map (entryRange m)
  else []

def ranges (m : Mem) (tags : List Nat) : List Range := tags.flatMap (tagRanges m)

/-- All entries of all memory maps. -/
def allEntries (m : Mem) (tags : List Nat) : List Nat :=
  (tags.filter fun t => tagType m t = 6).flatMap (entries m)

/-- What a boot loader leaves. -/
structure Firmware (m : Mem) (a n : Nat) (tags : List Nat) : Prop extends WellFormed m a n tags where
  /-- A memory map consists of whole entries. -/
  whole : ∀ t ∈ tags, tagType m t = 6 →
    16 ≤ tagSize m t ∧ 24 ≤ mapEntrySize m t ∧ mapEntrySize m t ∣ tagSize m t - 16
  /-- Entries end in the address space. -/
  bounded : ∀ e ∈ allEntries m tags, baseAddr m e + entryLength m e ≤ 2 ^ 64
  /-- Entries do not overlap. -/
  apart : (allEntries m tags).Pairwise fun e e' =>
    baseAddr m e + entryLength m e ≤ baseAddr m e' ∨ baseAddr m e' + entryLength m e' ≤ baseAddr m e
  /-- Modules are in available memory. -/
  modules : ∀ t ∈ tags, tagType m t = 3 → 16 ≤ tagSize m t ∧ modStart m t ≤ modEnd m t ∧
    ∃ e ∈ allEntries m tags, entryType m e = 1 ∧ baseAddr m e ≤ modStart m t ∧
      modEnd m t ≤ baseAddr m e + entryLength m e

/-! ## The loops mark lists -/

theorem entryLoop_eq : ∀ {k page : Nat} {mem : Memory},
    entryLoop page k mem = markAll mem (List.range' page k)
  | 0, _, _ => rfl
  | k + 1, page, mem => by
    rw [entryLoop, List.range'_succ, markAll, foldlM_cons]
    exact congrArg _ (funext fun mem => entryLoop_eq)

theorem moduleLoop_eq {last : Nat} : ∀ {fuel paddr : Nat} {mem : Memory}, last - paddr < fuel →
    moduleLoop last fuel paddr mem
      = markAll mem (List.range' (paddr / 0x1000) ((last - paddr + 0xfff) / 0x1000))
  | 0, _, _, h => absurd h (Nat.not_lt_zero _)
  | fuel + 1, paddr, mem, h => by
    rw [moduleLoop]
    split
    · rename_i hlt
      have hpages : (last - paddr + 0xfff) / 0x1000
          = (last - (paddr + 0x1000) + 0xfff) / 0x1000 + 1 := by omega
      rw [hpages, List.range'_succ, markAll, foldlM_cons,
        ← Nat.add_div_right paddr (by decide : 0 < 0x1000)]
      exact congrArg _ (funext fun mem => moduleLoop_eq (by unfold Paging.PAGE_SIZE; omega))
    · rw [show (last - paddr + 0xfff) / 0x1000 = 0 by omega]
      rfl

theorem prehandleModule_eq {mod : Nat} :
    prehandleModule m mod mem = markAll mem (moduleRange m mod).marks := by
  have hend : modEnd m mod < 2 ^ 32 := readLE_lt m 4 _
  rw [prehandleModule, moduleLoop_eq (by omega)]
  unfold Range.marks Range.page Range.pages moduleRange
  simp only
  rw [Nat.mod_eq_of_lt (by omega)]

variable {e : Nat}

theorem handleMemoryMapEntry_eq : handleMemoryMapEntry m e mem
    = markAll mem (if entryType m e = 1 then [] else (entryRange m e).marks) := by
  unfold handleMemoryMapEntry
  split
  · rfl
  · simp only [entryLoop_eq, Nat.add_sub_cancel_left]
    rfl

/-- The end that is counted from is 16 bytes too far, which is less than an entry: the loop looks
one entry ahead, and is over when what is left are these 16 bytes. -/
theorem memoryMapLoop_calls {size stop : Nat} (hsize : 16 ≤ size) : ∀ {k fuel entry : Nat}
    {mem : Memory}, stop = entry + k * size + 16 → k < fuel →
    memoryMapLoop m size stop fuel entry mem
      = (List.range' entry k size).foldlM (fun mem e => handleMemoryMapEntry m e mem) mem
  | 0, fuel, entry, mem, hs, hf => by
    obtain ⟨f, rfl⟩ : ∃ f, fuel = f + 1 := ⟨fuel - 1, by omega⟩
    rw [memoryMapLoop, if_neg (by omega)]
    rfl
  | k + 1, fuel, entry, mem, hs, hf => by
    obtain ⟨f, rfl⟩ : ∃ f, fuel = f + 1 := ⟨fuel - 1, by omega⟩
    rw [Nat.succ_mul] at hs
    rw [memoryMapLoop, if_pos (by omega)]
    exact congrArg _ (funext fun mem => memoryMapLoop_calls hsize (by omega) (by omega))

theorem handleMemoryMapEntry_congr {m' : Mem} (h : ∀ x, e ≤ x → x < e + 20 → m x = m' x) :
    handleMemoryMapEntry m e mem = handleMemoryMapEntry m' e mem := by
  have hbase : baseAddr m e = baseAddr m' e :=
    readLE_congr fun x h1 h2 => h x h1 (by omega)
  have hlen : entryLength m e = entryLength m' e :=
    readLE_congr fun x h1 h2 => h x (by omega) (by omega)
  have htype : entryType m e = entryType m' e :=
    readLE_congr fun x h1 h2 => h x (by omega) (by omega)
  unfold handleMemoryMapEntry
  rw [hbase, hlen, htype]

theorem foldlM_handleMemoryMapEntry_congr {m' : Mem} : ∀ {l : List Nat} {mem : Memory},
    (∀ e ∈ l, ∀ x, e ≤ x → x < e + 20 → m x = m' x) →
    l.foldlM (fun mem e => handleMemoryMapEntry m e mem) mem
      = l.foldlM (fun mem e => handleMemoryMapEntry m' e mem) mem
  | [], _, _ => rfl
  | e :: l, mem, h => by
    obtain ⟨he, hl⟩ := List.forall_mem_cons.mp h
    rw [foldlM_cons, handleMemoryMapEntry_congr he]
    exact congrArg _ (funext fun mem => foldlM_handleMemoryMapEntry_congr hl)

theorem entry_inside {map n size : Nat} (h24 : 24 ≤ size) (he : e ∈ List.range' (map + 16) n size) :
    map + 16 ≤ e ∧ e + 24 ≤ map + (16 + n * size) := by
  obtain ⟨i, hi, rfl⟩ := List.mem_range'.mp he
  have hle : (i + 1) * size ≤ n * size := Nat.mul_le_mul_right size hi
  rw [Nat.succ_mul] at hle
  rw [Nat.mul_comm size i]
  omega

/-- **The traversal of a memory map.** All its entries are handled, one after the other, and nothing
else: they lie in the tag, and what stands behind the tag is not read. -/
theorem prehandleMemoryMap_calls {map n : Nat} (h24 : 24 ≤ mapEntrySize m map)
    (hsize : tagSize m map = 16 + n * mapEntrySize m map) :
    (∀ mem, prehandleMemoryMap m map mem = (List.range' (map + 16) n (mapEntrySize m map)).foldlM
      (fun mem e => handleMemoryMapEntry m e mem) mem) ∧
    (∀ e ∈ List.range' (map + 16) n (mapEntrySize m map),
      map + 16 ≤ e ∧ e + 24 ≤ map + tagSize m map) ∧
    ∀ m', (∀ x, map ≤ x → x < map + tagSize m map → m' x = m x) →
      ∀ mem, prehandleMemoryMap m' map mem = prehandleMemoryMap m map mem := by
  have hcalls : ∀ {m : Mem}, 24 ≤ mapEntrySize m map →
      tagSize m map = 16 + n * mapEntrySize m map → ∀ mem,
      prehandleMemoryMap m map mem = (List.range' (map + 16) n (mapEntrySize m map)).foldlM
        (fun mem e => handleMemoryMapEntry m e mem) mem := by
    intro m h24 hsize mem
    have hn : n ≤ n * mapEntrySize m map := Nat.le_mul_of_pos_right n (by omega)
    exact memoryMapLoop_calls (by omega) (by omega) (by omega)
  refine ⟨hcalls h24 hsize, fun e he => ?_, fun m' hm mem => ?_⟩
  · rw [hsize]
    exact entry_inside h24 he
  · -- the size and the size of an entry stand in the tag too
    have hlen : tagSize m' map = tagSize m map :=
      readLE_congr fun x h₁ h₂ => hm x (by omega) (by omega)
    have hes : mapEntrySize m' map = mapEntrySize m map :=
      readLE_congr fun x h₁ h₂ => hm x (by omega) (by omega)
    rw [hcalls h24 hsize, hcalls (by rwa [hes]) (by rwa [hes, hlen]), hes]
    refine foldlM_handleMemoryMapEntry_congr fun e he x h₁ h₂ => ?_
    obtain ⟨hlo, hhi⟩ := entry_inside h24 he
    exact hm x (by omega) (by omega)

theorem foldlM_handleMemoryMapEntry : ∀ {l : List Nat} {mem : Memory},
    l.foldlM (fun mem e => handleMemoryMapEntry m e mem) mem = markAll mem (l.flatMap
      fun e => if entryType m e = 1 then [] else (entryRange m e).marks)
  | [], _ => rfl
  | e :: l, mem => by
    rw [foldlM_cons, handleMemoryMapEntry_eq, List.flatMap_cons, markAll_append]
    exact congrArg _ (funext fun mem => foldlM_handleMemoryMapEntry)

theorem prehandleMemoryMap_eq {map : Nat} (h16 : 16 ≤ tagSize m map)
    (h24 : 24 ≤ mapEntrySize m map) (hdvd : mapEntrySize m map ∣ tagSize m map - 16) :
    prehandleMemoryMap m map mem = markAll mem ((entries m map).flatMap
      fun e => if entryType m e = 1 then [] else (entryRange m e).marks) := by
  have hk := Nat.div_mul_cancel hdvd
  have hle := Nat.div_le_self (tagSize m map - 16) (mapEntrySize m map)
  rw [← foldlM_handleMemoryMapEntry]
  exact memoryMapLoop_calls (by omega) (by omega) (by omega)

/-- Entries of available memory contribute nothing. -/
theorem flatMap_filter_marks {l : List Nat} :
    (l.flatMap fun e => if entryType m e = 1 then [] else (entryRange m e).marks)
      = ((l.filter fun e => entryType m e ≠ 1).map (entryRange m)).flatMap Range.marks := by
  induction l with
  | nil => rfl
  | cons e l ih =>
    rw [List.flatMap_cons, ih]
    by_cases he : entryType m e = 1
    · rw [if_pos he, List.filter_cons_of_neg (by simpa using he)]
      rfl
    · rw [if_neg he, List.filter_cons_of_pos (by simpa using he)]
      rfl

theorem prehandleTag_eq (hf : Firmware m a n tags) {t : Nat} (ht : t ∈ tags) :
    prehandleTag m t mem = markAll mem ((tagRanges m t).flatMap Range.marks) := by
  unfold prehandleTag tagRanges
  split
  · rw [prehandleModule_eq, List.flatMap_singleton]
  · split
    · rename_i htype
      obtain ⟨h16, h24, hdvd⟩ := hf.whole t ht htype
      rw [prehandleMemoryMap_eq h16 h24 hdvd, flatMap_filter_marks]
    · rfl

/-- `prepareMemory` marks the pages of all ranges, in their order. -/
theorem prepareMemory_eq (hf : Firmware m a n tags) : prepareMemory m a n mem
    = (markAll mem ((ranges m tags).flatMap Range.marks)).bind fun mem =>
        (assert (∃ t ∈ tags, tagType m t = 6)).bind fun _ => some mem := by
  have hfold : ∀ {l : List Nat} {mem : Memory} {found : Bool}, l ⊆ tags →
      l.foldlM (fun (s : Memory × Bool) tag => do
          let mem ← prehandleTag m tag s.1
          some (mem, s.2 || tagType m tag == 6)) (mem, found)
        = (markAll mem ((ranges m l).flatMap Range.marks)).bind fun mem =>
            some (mem, found || l.any fun t => tagType m t == 6) := by
    intro l
    induction l with
    | nil => intro mem found _; simp [ranges, markAll]
    | cons t l ih =>
      intro mem found hl
      obtain ⟨ht, hl⟩ := List.cons_subset.mp hl
      rw [foldlM_cons, prehandleTag_eq hf ht]
      unfold ranges at ih ⊢
      rw [List.flatMap_cons, List.flatMap_append, markAll_append]
      simp only [bind_eq_bind, Option.bind_assoc, bind_some, List.any_cons] at ih ⊢
      refine congrArg _ (funext fun mem => ?_)
      rw [ih hl, Bool.or_assoc]
  unfold prepareMemory
  rw [hf.chain.handleLoop_eq hf.length_lt]
  refine (congrArg (Option.bind · _) (hfold (List.Subset.refl tags))).trans ?_
  rw [Option.bind_assoc]
  refine congrArg _ (funext fun mem => ?_)
  simp

/-! ## What is reserved -/

/-- What is to be reserved: no assertion fails, and afterwards the frames in use are those that
were, and those that hold a byte that must not be given out; and they are counted. -/
def Reserves (m : Mem) (a n : Nat) (tags : List Nat) (mem : Memory) : Prop :=
  ∃ mem', prepareMemory m a n mem = some mem' ∧
    (∀ f, Used mem'.frames f ↔ Used mem.frames f ∨ ∃ r ∈ ranges m tags, r.Touches f) ∧
    mem'.usedPageCount = mem'.frames.count true

/-- When rounding does no harm. -/
structure Markable (m : Mem) (tags : List Nat) (mem : Memory) : Prop where
  /-- There is a memory map. -/
  map : ∃ t ∈ tags, tagType m t = 6
  /-- No two ranges are rounded to the same page. -/
  apart : (ranges m tags).Pairwise fun r r' => ∀ f ∈ r.marks, f ∉ r'.marks
  /-- No range is rounded to a page in use. -/
  fresh : ∀ r ∈ ranges m tags, ∀ f ∈ r.marks, ¬ Used mem.frames f
  /-- The page that a range reaches beyond these is taken care of otherwise. -/
  rest : ∀ r ∈ ranges m tags, ∀ f, r.Touches f → f ∉ r.marks →
    Used mem.frames f ∨ ∃ r' ∈ ranges m tags, f ∈ r'.marks

theorem nodup_marks_iff {l : List Range} : (l.flatMap Range.marks).Nodup ↔
    l.Pairwise fun r r' => ∀ f ∈ r.marks, f ∉ r'.marks := by
  rw [List.nodup_flatMap]
  refine ⟨fun h => h.2.imp fun hd f h1 h2 => hd h1 h2, fun h => ⟨fun r _ => ?_, ?_⟩⟩
  · exact List.nodup_range'
  · exact h.imp fun hd f h1 h2 => hd f h1 h2

theorem Reserves.markable (hf : Firmware m a n tags) (hr : Reserves m a n tags mem) :
    Markable m tags mem := by
  obtain ⟨mem', hp, hused, -⟩ := hr
  rw [prepareMemory_eq hf] at hp
  obtain ⟨mem1, hmark, hp⟩ := of_bind hp
  obtain ⟨hmap, hp⟩ := of_assert hp
  cases hp
  obtain ⟨hnodup, hfree, hused', -⟩ := markAll_spec hmark
  refine ⟨hmap, nodup_marks_iff.mp hnodup, fun r hr f hf => ?_, fun r hr f ht _ => ?_⟩
  · exact hfree f (List.mem_flatMap.mpr ⟨r, hr, hf⟩)
  · refine ((hused' f).mp ((hused f).mpr (.inr ⟨r, hr, ht⟩))).imp id fun hm => ?_
    exact List.mem_flatMap.mp hm

theorem Markable.reserves (hf : Firmware m a n tags) (hc : mem.Counted)
    (hm : Markable m tags mem) : Reserves m a n tags mem := by
  obtain ⟨mem', hmark⟩ := markAll_total (nodup_marks_iff.mpr hm.apart) fun f hf =>
    let ⟨r, hr, hfr⟩ := List.mem_flatMap.mp hf
    hm.fresh r hr f hfr
  obtain ⟨-, -, hused, hcount⟩ := markAll_spec hmark
  refine ⟨mem', ?_, fun f => ?_, hcount hc⟩
  · rw [prepareMemory_eq hf, hmark, bind_some, assert_pos hm.map, bind_some]
  · rw [hused, List.mem_flatMap]
    constructor
    · rintro (hu | ⟨r, hr, hfr⟩)
      · exact .inl hu
      · exact .inr ⟨r, hr, Range.touches_of_marks hfr⟩
    · rintro (hu | ⟨r, hr, ht⟩)
      · exact .inl hu
      · by_cases hfr : f ∈ r.marks
        · exact .inr ⟨r, hr, hfr⟩
        · exact hm.rest r hr f ht hfr

end Info

/-! ## The frames of the kernel -/

/-- Where the parts of the kernel are in physical memory. -/
structure KernelImage where
  textStart : Nat
  textSize : Nat
  rodataStart : Nat
  rodataSize : Nat
  dataStart : Nat
  /-- Of `.data` and `.bss` together. -/
  dataSize : Nat
  bssEnd : Nat

/-- `Memory::setRangeUsed`. -/
def Memory.setRangeUsed (mem : Memory) (start stop : Nat) : Option Memory := do
  assert (start ≤ stop)
  entryLoop start (stop - start) mem

/-- What `MAP_RANGE` does with the frames. -/
def mapRange (mem : Memory) (phys size : Nat) : Option Memory :=
  mem.setRangeUsed (phys / 0x1000) ((phys + size) / 0x1000)

/-- The frames that `initWithDefaultPaging` marks. -/
def initWithDefaultPaging (k : KernelImage) : Option Memory := do
  let mem ← Memory.setPageUsed ⟨[], 0⟩ (0xB8000 / 0x1000)
  let mem ← mapRange mem k.textStart k.textSize
  let mem ← mapRange mem k.rodataStart k.rodataSize
  let mem ← mapRange mem k.dataStart k.dataSize
  let addr := ptrAlignSup k.bssEnd 0x200000
  let mem ← mapRange mem (addr + 0x200000 - 0x4000) 0x4000
  let mem ← mapRange mem (addr + 0x200000) (32 * 0x1000)
  mapRange mem (addr + 0x200000 + 0x200000) 0x200000

/-- The frames of a range of the kernel. -/
def kernelPages (phys size : Nat) : List Nat :=
  List.range' (phys / 0x1000) ((phys + size) / 0x1000 - phys / 0x1000)

theorem mapRange_eq {mem : Memory} {phys size : Nat} :
    mapRange mem phys size = markAll mem (kernelPages phys size) := by
  unfold mapRange Memory.setRangeUsed
  rw [assert_pos (Nat.div_le_div_right (Nat.le_add_right _ _)), entryLoop_eq]
  rfl

/-- The frames of the kernel, in the order in which they are marked. -/
def KernelImage.frames (k : KernelImage) : List Nat :=
  let addr := ptrAlignSup k.bssEnd 0x200000
  [0xB8] ++ kernelPages k.textStart k.textSize ++ kernelPages k.rodataStart k.rodataSize ++
    kernelPages k.dataStart k.dataSize ++ kernelPages (addr + 0x200000 - 0x4000) 0x4000 ++
    kernelPages (addr + 0x200000) (32 * 0x1000) ++
    kernelPages (addr + 0x200000 + 0x200000) 0x200000

theorem initWithDefaultPaging_eq (k : KernelImage) :
    initWithDefaultPaging k = markAll ⟨[], 0⟩ k.frames := by
  have hone : Memory.setPageUsed ⟨[], 0⟩ (0xB8000 / 0x1000) = markAll ⟨[], 0⟩ [0xB8] := by
    rw [markAll, foldlM_cons]
    exact (Option.bind_fun_some _).symm
  unfold initWithDefaultPaging KernelImage.frames
  simp only [hone, mapRange_eq, markAll_append, bind_eq_bind, Option.bind_assoc]

theorem initWithDefaultPaging_spec {k : KernelImage} {mem : Memory}
    (hk : initWithDefaultPaging k = some mem) :
    mem.Counted ∧ ∀ f, Used mem.frames f ↔ f ∈ k.frames := by
  rw [initWithDefaultPaging_eq] at hk
  obtain ⟨-, -, hused, hcount⟩ := markAll_spec hk
  refine ⟨hcount rfl, fun f => ?_⟩
  rw [hused]
  simp [Used]

/--
**Exactly what must not be given out is reserved**, if and only if the ranges are rounded to
different pages, none in use, and no range needs a page more than it is rounded to.
-/
theorem prepareMemory_reserves {m : Mem} {a n : Nat} {tags : List Nat} {k : KernelImage}
    {mem : Memory} (hf : Firmware m a n tags) (hk : initWithDefaultPaging k = some mem) :
    Reserves m a n tags mem ↔ Markable m tags mem :=
  ⟨Reserves.markable hf, Markable.reserves hf (initWithDefaultPaging_spec hk).1⟩

/-- A kernel of three pages at 2 MB. -/
def smallImage : KernelImage where
  textStart := 0x200000
  textSize := 0x1000
  rodataStart := 0x201000
  rodataSize := 0x1000
  dataStart := 0x202000
  dataSize := 0x1000
  bssEnd := 0x203000

theorem smallImage_frames : smallImage.frames = [0xb8] ++ List.range' 0x200 1 ++
    List.range' 0x201 1 ++ List.range' 0x202 1 ++ List.range' 0x5fc 4 ++ List.range' 0x600 32 ++
    List.range' 0x800 0x200 := rfl

theorem mem_smallImage_frames : f ∈ smallImage.frames ↔
    f = 0xb8 ∨ 0x200 ≤ f ∧ f < 0x203 ∨ 0x5fc ≤ f ∧ f < 0x620 ∨ 0x800 ≤ f ∧ f < 0xa00 := by
  simp only [smallImage_frames, mem_append, mem_singleton, List.mem_range'_1]
  omega

theorem smallImage_init : ∃ mem, initWithDefaultPaging smallImage = some mem := by
  rw [initWithDefaultPaging_eq, smallImage_frames]
  refine markAll_total ?_ fun f _ => by simp [Used]
  have hrange : ∀ s k, (List.range' s k).Nodup := fun s k => List.nodup_range'
  simp only [List.nodup_append, hrange, List.nodup_singleton, mem_append, mem_singleton,
    List.mem_range'_1, true_and]
  refine ⟨⟨⟨⟨⟨?_, ?_⟩, ?_⟩, ?_⟩, ?_⟩, ?_⟩ <;>
  · intro f hf g hg
    omega

/-- A memory map of a small machine: memory, a reserved piece at `0x9fc00` of `len` times 256
bytes, and memory again from 1 MB to 128 MB. -/
def pcMap (len : UInt8) : Mem := fun x =>
  ([104, 0, 0, 0, 0, 0, 0, 0,
    6, 0, 0, 0, 88, 0, 0, 0, 24, 0, 0, 0, 0, 0, 0, 0,
    0, 0, 0, 0, 0, 0, 0, 0, 0, 0xfc, 9, 0, 0, 0, 0, 0, 1, 0, 0, 0, 0, 0, 0, 0,
    0, 0xfc, 9, 0, 0, 0, 0, 0, 0, len, 0, 0, 0, 0, 0, 0, 2, 0, 0, 0, 0, 0, 0, 0,
    0, 0, 0x10, 0, 0, 0, 0, 0, 0, 0, 0xf0, 7, 0, 0, 0, 0, 1, 0, 0, 0, 0, 0, 0, 0,
    0, 0, 0, 0, 8] : List UInt8).getD (x - 0x1000) 0

theorem pcMap_firmware {len : UInt8} (h : len = 4 ∨ len = 16) :
    Firmware (pcMap len) 0x1000 104 [0x1008] := by
  obtain rfl | rfl := h
  all_goals exact
    { aligned := by decide
      inside := by decide
      size := by decide
      large := by decide
      chain := ⟨rfl, by decide, by decide, by decide, by decide, by decide, by decide⟩
      whole := by decide
      bounded := by decide
      apart := by decide
      modules := by decide }

/-- Its three entries. -/
theorem prehandleMemoryMap_calls_pcMap :
    24 ≤ mapEntrySize (pcMap 4) 0x1008 ∧
    tagSize (pcMap 4) 0x1008 = 16 + 3 * mapEntrySize (pcMap 4) 0x1008 ∧
    ∀ mem, prehandleMemoryMap (pcMap 4) 0x1008 mem = [0x1018, 0x1030, 0x1048].foldlM
      (fun mem e => handleMemoryMapEntry (pcMap 4) e mem) mem :=
  ⟨by decide, by decide, (prehandleMemoryMap_calls (n := 3) (by decide) (by decide)).1⟩

/-- With 1 KB it is reserved as it should be. -/
theorem prepareMemory_reserves_pcMap :
    ∃ mem, initWithDefaultPaging smallImage = some mem ∧ Reserves (pcMap 4) 0x1000 104 [0x1008] mem := by
  obtain ⟨mem, hk⟩ := smallImage_init
  have hused := (initWithDefaultPaging_spec hk).2
  have hranges : ranges (pcMap 4) [0x1008] = [⟨0x9fc00, 0x400⟩] := by decide
  refine ⟨mem, hk, (prepareMemory_reserves (pcMap_firmware (.inl rfl)) hk).mpr ⟨by decide, ?_, ?_, ?_⟩⟩
  · rw [hranges]
    exact List.pairwise_singleton _ _
  · rw [hranges]
    intro r hr f hf
    obtain rfl := mem_singleton.mp hr
    rw [hused, mem_smallImage_frames]
    have hf := Range.mem_marks.mp hf
    unfold Range.page Range.pages at hf
    simp only at hf
    omega
  · rw [hranges]
    intro r hr f ht hf
    obtain rfl := mem_singleton.mp hr
    rcases (Range.touches_iff (by decide)).mp ht with hmark | ⟨-, -, hspill⟩
    · exact absurd hmark hf
    · exact absurd hspill (by decide)

/-- With 4 KB it reaches into frame `0xa0`, which is not marked. -/
theorem reserved_frame_left_free :
    ∃ mem, initWithDefaultPaging smallImage = some mem ∧
      Firmware (pcMap 16) 0x1000 104 [0x1008] ∧ ¬ Reserves (pcMap 16) 0x1000 104 [0x1008] mem := by
  obtain ⟨mem, hk⟩ := smallImage_init
  have hf := pcMap_firmware (.inr rfl)
  refine ⟨mem, hk, hf, fun hr => ?_⟩
  have hranges : ranges (pcMap 16) [0x1008] = [⟨0x9fc00, 0x1000⟩] := by decide
  have hrest := (hr.markable hf).rest
  rw [hranges] at hrest
  rcases hrest _ (List.mem_singleton_self _) 0xa0 (by decide) (by decide) with hu | ⟨r, hr, hm⟩
  · rw [(initWithDefaultPaging_spec hk).2, mem_smallImage_frames] at hu
    omega
  · obtain rfl := mem_singleton.mp hr
    exact absurd hm (by decide)

end Flix.Boot

import Flix.Boot.MemoryMap

/-!
# The memory that is given out

The bitmap of `Memory` holds what is reserved, and nothing in it says what there is.
`getFreePage` looks for the first frame that is not marked; when all are marked it
makes the bitmap longer and takes the first new one. A hole between two entries of
the memory map is not marked by anybody, and the memory has an end that the bitmap
does not know: `getFreePage` never says that there is nothing left.
-/

namespace Flix.Boot

open Bytes KHeap Paging Runs

variable {m : Mem} {a n : Nat} {tags : List Nat} {mem mem' s s' : Memory}

/-! ## The state after booting -/

/-- What `kmain` does with `Memory`: the memory map, and then the frames of the hardware. -/
def boot (m : Mem) (a n : Nat) (mem : Memory) : Option Memory := do
  let mem ← prepareMemory m a n mem
  let mem ← mem.completeRangeUsed (0xa0000 / 0x1000) (0xb8000 / 0x1000 - 0xa0000 / 0x1000)
  mem.completeRangeUsed (0xb9000 / 0x1000) (0xe8000 / 0x1000 - 0xb9000 / 0x1000)

variable {f B : Nat}

theorem not_used_iff {frames : List Bool} :
    ¬ Used frames f ↔ frames.length ≤ f ∨ frames[f]? = some false := by
  rw [← List.getElem?_eq_none_iff, Used]
  cases frames[f]? with
  | none => simp
  | some b => cases b <;> simp

theorem Memory.setPageUsed_free (h : ¬ Used mem.frames f) :
    ∃ mem', mem.setPageUsed f = some mem' := by
  unfold Memory.setPageUsed
  rw [Boot.setPageUsed_free h]
  exact ⟨_, rfl⟩

/-- What is marked already is passed over, so that nothing can go wrong. -/
theorem completeRangeUsed_spec : ∀ (k page : Nat) (mem : Memory),
    ∃ mem', mem.completeRangeUsed page k = some mem' ∧
      (∀ j, Used mem'.frames j ↔ Used mem.frames j ∨ page ≤ j ∧ j < page + k) ∧
      (mem.Counted → mem'.Counted)
  | 0, page, mem => ⟨mem, rfl, fun j => by simp, id⟩
  | k + 1, page, mem => by
    have hrange : ∀ j, page ≤ j ∧ j < page + (k + 1) ↔
        j = page ∨ page + 1 ≤ j ∧ j < page + 1 + k := by omega
    rw [Memory.completeRangeUsed]
    by_cases hu : Used mem.frames page
    · rw [if_neg (not_used_iff.not.mp (not_not.mpr hu))]
      obtain ⟨mem', hrest, hused, hcount⟩ := completeRangeUsed_spec k (page + 1) mem
      refine ⟨mem', hrest, fun j => ?_, hcount⟩
      rw [hused, hrange, ← or_assoc, or_iff_left_of_imp fun hj : j = page => hj ▸ hu]
    · rw [if_pos (not_used_iff.mp hu)]
      obtain ⟨mem1, hset⟩ := Memory.setPageUsed_free hu
      obtain ⟨-, hused1, hcount1⟩ := Memory.setPageUsed_spec hset
      obtain ⟨mem', hrest, hused, hcount⟩ := completeRangeUsed_spec k (page + 1) mem1
      refine ⟨mem', by rw [hset]; exact hrest, fun j => ?_, hcount ∘ hcount1⟩
      rw [hused, hused1, hrange, or_assoc]

/-- The frames of the hardware. -/
def Hardware (f : Nat) : Prop := 0xa0 ≤ f ∧ f < 0xb8 ∨ 0xb9 ≤ f ∧ f < 0xe8

/-- What is in use after booting: the kernel, the pages that the ranges are rounded to, and the
hardware. -/
theorem boot_spec {k : KernelImage} (hf : Firmware m a n tags)
    (hk : initWithDefaultPaging k = some mem) (hb : boot m a n mem = some mem') (f : Nat) :
    Used mem'.frames f ↔
      f ∈ k.frames ∨ (∃ r ∈ ranges m tags, f ∈ r.marks) ∨ Hardware f := by
  obtain ⟨mem1, hp, hb⟩ := of_bind hb
  obtain ⟨mem2, h2, hb⟩ := of_bind hb
  obtain ⟨mem2', h2', hused2, -⟩ := completeRangeUsed_spec
    (0xb8000 / 0x1000 - 0xa0000 / 0x1000) (0xa0000 / 0x1000) mem1
  obtain rfl := mem_unique h2 h2'
  obtain ⟨mem3, h3, hused3, -⟩ := completeRangeUsed_spec
    (0xe8000 / 0x1000 - 0xb9000 / 0x1000) (0xb9000 / 0x1000) mem2
  obtain rfl := mem_unique hb h3
  rw [prepareMemory_eq hf] at hp
  obtain ⟨mem1', hmark, hp⟩ := of_bind hp
  obtain ⟨-, hp⟩ := of_assert hp
  cases hp
  rw [hused3, hused2, (markAll_spec hmark).2.2.1, (initWithDefaultPaging_spec hk).2,
    List.mem_flatMap, Hardware]
  simp only [or_assoc]

/-! ## Requests for frames -/

/-- The frame is inside an entry of available memory. -/
def Inside (m : Mem) (tags : List Nat) (f : Nat) : Prop :=
  ∃ e ∈ allEntries m tags, entryType m e = 1 ∧ baseAddr m e ≤ f * 0x1000 ∧
    (f + 1) * 0x1000 ≤ baseAddr m e + entryLength m e

instance (m : Mem) (tags : List Nat) (f : Nat) : Decidable (Inside m tags f) :=
  inferInstanceAs (Decidable (∃ e ∈ allEntries m tags, _))

inductive Request where
  | getFreePage
  | setPageFree (page : Nat)

def request (s : Memory) : Request → Option Memory
  | .getFreePage => s.getFreePage.map Prod.fst
  | .setPageFree page => s.setPageFree page

/-- What is to be given out: a frame of available memory that is not in use; and when there is
none, the invalid page. -/
def HandsOut (m : Mem) (tags : List Nat) (s : Memory) : Prop :=
  ∃ s' f, s.getFreePage = some (s', f) ∧
    (Inside m tags f ∧ ¬ Used s.frames f ∨
      f = INVALID_PAGE ∧ ∀ g, Inside m tags g → Used s.frames g)

/-- Requests that the memory below `B` can serve: a frame while one of these is not in use, and
only available memory given back. -/
def Servable (m : Mem) (tags : List Nat) (B : Nat) (s : Memory) : Request → Prop
  | .getFreePage => ∃ f < B, ¬ Used s.frames f
  | .setPageFree page => Inside m tags page

/-- The free page is the first one that is not in use. -/
theorem getFreePage_least (hfree : ¬ Used s.frames f) (hleast : ∀ g < f, Used s.frames g) :
    ∃ s', s.getFreePage = some (s', f) ∧ ∀ g, Used s'.frames g ↔ Used s.frames g ∨ g = f := by
  obtain ⟨frames, hget⟩ : ∃ frames, getFreePage s.frames = some (frames, f) := by
    rcases not_used_iff.mp hfree with hlong | hbit
    · obtain ⟨frames, g, hget, hle, -⟩ := getFreePage_total s.frames
      have hge : f ≤ g := not_lt.mp fun hlt => (getFreePage_spec hget).1 (hleast g hlt)
      obtain rfl : g = f := le_antisymm (hle.trans hlong) hge
      exact ⟨frames, hget⟩
    · exact ⟨_, getFreePage_first hbit hleast⟩
  exact ⟨_, by rw [Memory.getFreePage, hget]; rfl, (getFreePage_spec hget).2⟩

theorem getFreePage_below (h : ∃ f < B, ¬ Used s.frames f) :
    ∃ s' f, f < B ∧ ¬ Used s.frames f ∧ s.getFreePage = some (s', f) ∧
      ∀ g, Used s'.frames g ↔ Used s.frames g ∨ g = f := by
  obtain ⟨g, hg, hfree⟩ := h
  have hex : ∃ f, ¬ Used s.frames f := ⟨g, hfree⟩
  obtain ⟨s', hget, hused⟩ := getFreePage_least (Nat.find_spec hex)
    fun f hf => not_not.mp (Nat.find_min hex hf)
  exact ⟨s', _, (Nat.find_min' hex hfree).trans_lt hg, Nat.find_spec hex, hget, hused⟩

/-- The frames below `B` that are not in use are available. -/
def FreeInside (m : Mem) (tags : List Nat) (B : Nat) (s : Memory) : Prop :=
  ∀ f < B, ¬ Used s.frames f → Inside m tags f

theorem FreeInside.step {q : Request} (h : FreeInside m tags B s) (hq : Servable m tags B s q)
    (hs : request s q = some s') : FreeInside m tags B s' := by
  intro g hg hfree
  cases q with
  | getFreePage =>
    obtain ⟨s1, f, -, -, hget, hused⟩ := getFreePage_below hq
    rw [request, hget] at hs
    cases hs
    exact h g hg fun hu => hfree ((hused g).mpr (.inl hu))
  | setPageFree page =>
    obtain ⟨frames, hset, hs⟩ := of_bind hs
    cases hs
    obtain ⟨-, hset⟩ := of_assert hset
    obtain ⟨-, hset⟩ := of_assert hset
    cases hset
    by_cases hpage : page = g
    · subst hpage
      exact hq
    · refine h g hg fun hu => hfree ?_
      rwa [Used, List.getElem?_set_ne hpage]

/--
**Only real memory is given out**, in a run that stays below some bound, if every frame below it is
available or marked.
-/
theorem getFreePage_hands_out {k : KernelImage} (hf : Firmware m a n tags)
    (hk : initWithDefaultPaging k = some mem) (hb : boot m a n mem = some mem')
    (hcover : ∀ f < B, Inside m tags f ∨ f ∈ k.frames ∨
      (∃ r ∈ ranges m tags, f ∈ r.marks) ∨ Hardware f)
    (hs : Reach request (Servable m tags B) mem' s) (hfree : Servable m tags B s .getFreePage) :
    HandsOut m tags s := by
  have hstart : FreeInside m tags B mem' := by
    intro f hfB hu
    rw [boot_spec hf hk hb] at hu
    exact (hcover f hfB).resolve_right hu
  have hinv : FreeInside m tags B s := hs.invariant hstart fun _ _ _ h hq hs => h.step hq hs
  obtain ⟨s', f, hfB, hu, hget, -⟩ := getFreePage_below hfree
  exact ⟨s', f, hget, .inl ⟨hinv f hfB hu, hu⟩⟩

/-- Booting succeeds when marking does. -/
theorem boot_total (hf : Firmware m a n tags) (hm : Markable m tags mem) :
    ∃ mem', boot m a n mem = some mem' := by
  obtain ⟨mem1, hmark⟩ := markAll_total (nodup_marks_iff.mpr hm.apart) fun f hf =>
    let ⟨r, hr, hfr⟩ := List.mem_flatMap.mp hf
    hm.fresh r hr f hfr
  obtain ⟨mem2, h2, -⟩ := completeRangeUsed_spec
    (0xb8000 / 0x1000 - 0xa0000 / 0x1000) (0xa0000 / 0x1000) mem1
  obtain ⟨mem3, h3, -⟩ := completeRangeUsed_spec
    (0xe8000 / 0x1000 - 0xb9000 / 0x1000) (0xb9000 / 0x1000) mem2
  refine ⟨mem3, ?_⟩
  rw [boot, prepareMemory_eq hf, hmark, assert_pos hm.map]
  simp only [bind_eq_bind, bind_some, h2, h3]

/-- A machine with 128 MB and nothing else. -/
def oneArea : Mem := fun x =>
  ([56, 0, 0, 0, 0, 0, 0, 0,
    6, 0, 0, 0, 40, 0, 0, 0, 24, 0, 0, 0, 0, 0, 0, 0,
    0, 0, 0, 0, 0, 0, 0, 0, 0, 0, 0, 8, 0, 0, 0, 0, 1, 0, 0, 0, 0, 0, 0, 0,
    0, 0, 0, 0, 8] : List UInt8).getD (x - 0x1000) 0

theorem oneArea_firmware : Firmware oneArea 0x1000 56 [0x1008] where
  aligned := by decide
  inside := by decide
  size := by decide
  large := by decide
  chain := ⟨rfl, by decide, by decide, by decide, by decide, by decide, by decide⟩
  whole := by decide
  bounded := by decide
  apart := by decide
  modules := by decide

theorem oneArea_inside : Inside oneArea [0x1008] f ↔ f < 0x8000 := by
  have hentries : allEntries oneArea [0x1008] = [0x1018] := by decide
  have htype : entryType oneArea 0x1018 = 1 := by decide
  have hbase : baseAddr oneArea 0x1018 = 0 := by decide
  have hlength : entryLength oneArea 0x1018 = 0x8000000 := by decide
  simp only [Inside, hentries, mem_singleton, exists_eq_left]
  omega

/-- It boots. -/
theorem oneArea_boot : ∃ mem mem', initWithDefaultPaging smallImage = some mem ∧
    boot oneArea 0x1000 56 mem = some mem' := by
  obtain ⟨mem, hk⟩ := smallImage_init
  have hranges : ranges oneArea [0x1008] = [] := by decide
  have hmark : Markable oneArea [0x1008] mem := by
    refine ⟨by decide, ?_, ?_, ?_⟩ <;> simp [hranges]
  obtain ⟨mem', hb⟩ := boot_total oneArea_firmware hmark
  exact ⟨mem, mem', hk, hb⟩

theorem getFreePage_hands_out_oneArea : ∃ mem mem', initWithDefaultPaging smallImage = some mem ∧
    boot oneArea 0x1000 56 mem = some mem' ∧ HandsOut oneArea [0x1008] mem' := by
  obtain ⟨mem, mem', hk, hb⟩ := oneArea_boot
  have hranges : ranges oneArea [0x1008] = [] := by decide
  have h0 : ¬ Used mem'.frames 0 := by
    rw [boot_spec oneArea_firmware hk hb, mem_smallImage_frames, hranges]
    simp [Hardware]
  exact ⟨mem, mem', hk, hb, getFreePage_hands_out oneArea_firmware hk hb
    (fun f hf => .inl (oneArea_inside.mpr hf)) .start ⟨0, by decide, h0⟩⟩

/-! ## Running out -/

/-- Frames can be asked for until all below `N` are in use. -/
theorem fill (mem : Memory) (N : Nat) : ∃ s, Reach request (fun _ _ => True) mem s ∧
    ∀ f, Used s.frames f ↔ Used mem.frames f ∨ f < N := by
  induction N with
  | zero => exact ⟨mem, .start, fun f => by simp⟩
  | succ N ih =>
    obtain ⟨s, hs, hused⟩ := ih
    by_cases hN : Used mem.frames N
    · refine ⟨s, hs, fun f => ?_⟩
      rw [hused, Nat.lt_succ_iff_lt_or_eq, ← or_assoc]
      refine (or_iff_left_of_imp ?_).symm
      rintro rfl
      exact .inl hN
    · have hfree : ¬ Used s.frames N := by
        rw [hused]
        exact not_or.mpr ⟨hN, lt_irrefl N⟩
      obtain ⟨s', hget, hused'⟩ := getFreePage_least hfree fun g hg => (hused g).mpr (.inr hg)
      refine ⟨s', .tail hs trivial (by rw [request, hget]; rfl), fun f => ?_⟩
      rw [hused', hused, or_assoc, ← Nat.lt_succ_iff_lt_or_eq]

/-- **Memory that is not there is given out**: after all 128 MB comes the frame behind. -/
theorem frame_beyond_memory : ∃ mem mem' s, initWithDefaultPaging smallImage = some mem ∧
    boot oneArea 0x1000 56 mem = some mem' ∧ Reach request (fun _ _ => True) mem' s ∧
    ¬ HandsOut oneArea [0x1008] s := by
  obtain ⟨mem, mem', hk, hb⟩ := oneArea_boot
  obtain ⟨s, hs, hused⟩ := fill mem' 0x8000
  refine ⟨mem, mem', s, hk, hb, hs, ?_⟩
  have hranges : ranges oneArea [0x1008] = [] := by decide
  have hfree : ¬ Used s.frames 0x8000 := by
    rw [hused, boot_spec oneArea_firmware hk hb, mem_smallImage_frames, hranges]
    simp [Hardware]
  obtain ⟨s', hget, -⟩ := getFreePage_least hfree fun g hg => (hused g).mpr (.inr hg)
  rintro ⟨s'', f, hget', hbad | ⟨hinv, -⟩⟩
  · obtain ⟨-, rfl⟩ := Prod.mk.inj (Option.some.inj (hget.symm.trans hget'))
    exact absurd (oneArea_inside.mp hbad.1) (by decide)
  · obtain ⟨-, rfl⟩ := Prod.mk.inj (Option.some.inj (hget.symm.trans hget'))
    exact absurd hinv (by decide)

end Flix.Boot

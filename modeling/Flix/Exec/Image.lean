import Flix.Exec.Writes

/-!
# The image of a program

A segment is mapped by a loop that goes in steps of a page from the segment's first byte, not
from the start of its page. So each round comes to a page of the segment, but when both ends
are within pages the last page may be left out; and two segments that meet within a page
come to it twice, which trips an assertion.

A file is loaded as it should be when neither happens. A page that a loop leaves out does no
harm if an earlier segment has it.
-/

namespace Flix.Exec

open Bytes Paging Fs

/-! ## Programs -/

/-- The segments of a file. -/
def segments (data : Str) : List ProgramHeader :=
  loads ((List.range (e_phnum (bytesOf data))).map (programHeader data))

def ProgramHeader.Has (h : ProgramHeader) (a : Nat) : Prop :=
  h.p_vaddr ≤ a ∧ a < h.p_vaddr + h.p_memsz

/-- A file with segments in user space that are apart from each other and from the stack. They may
start and end anywhere in a page. -/
structure Program (data : Str) : Prop where
  magic : checkHeader (bytesOf data) = true
  complete : Complete data
  sizes : ∀ h ∈ segments data, h.p_filesz ≤ h.p_memsz
  user : ∀ h ∈ segments data, h.p_vaddr + h.p_memsz ≤ 2 ^ 47
  apart : (segments data).Pairwise fun g h => ∀ a, g.Has a → ¬ h.Has a
  stack : ∀ h ∈ segments data, ∀ a, h.Has a → a < 0xf000000000 ∨ stackTop ≤ a

/-- A byte of a segment in memory: that of the file, or zero behind them. -/
def segmentByte (data : Str) (h : ProgramHeader) (j : Nat) : UInt8 :=
  if j < h.p_filesz then bytesOf data (h.p_offset + j) else 0

/-- The program is started with its segments in memory: all their bytes are on pages of its own,
which were there when they were written, and are those of the file. -/
structure Built (f : File) (root : Nat) (l : Loading) (st : Start) : Prop where
  entry : st.rip = e_entry (bytesOf f.data)
  written : ∀ e ∈ l.events, e.Ok
  mapped : ∀ h ∈ segments f.data, ∀ a, h.Has a → IsMapped l.world root (BitVec.ofNat 64 a)
  bytes : ∀ h ∈ segments f.data, ∀ j < h.p_memsz,
    l.mem (h.p_vaddr + j) = segmentByte f.data h j

/-- The pages to which the loop for a segment comes. -/
def loopPages (h : ProgramHeader) : List Nat :=
  List.range' (h.p_vaddr / 4096) ((h.p_memsz + 4095) / 4096)

/-- The loops come to no page twice, and each byte of a segment is on a page of its own loop or of
one before. -/
structure Loops (hs : List ProgramHeader) : Prop where
  once : (hs.flatMap loopPages).Nodup
  covered : ∀ pre h post, hs = pre ++ h :: post → ∀ a, h.Has a →
    a / 4096 ∈ (pre ++ [h]).flatMap loopPages

/-! ## Memory -/

section Image

variable {f : File} {m : Mem} {h : ProgramHeader} {a j : Nat}

theorem image_outside (hlen : (f.segment h).length ≤ h.p_memsz)
    (hwrap : h.p_vaddr + h.p_memsz ≤ 2 ^ 64) (ha : a < 2 ^ 64) (hout : ¬ h.Has a) :
    f.image m h a = m a := by
  have hout' : a < h.p_vaddr ∨ h.p_vaddr + h.p_memsz ≤ a := by
    unfold ProgramHeader.Has at hout
    omega
  rw [File.image, overwrite_outside (by omega) ha (by omega), overwrite_outside _ ha]
  · rwa [length_replicate]
  · rwa [length_replicate]

theorem image_inside (hlen : (f.segment h).length ≤ h.p_memsz)
    (hwrap : h.p_vaddr + h.p_memsz ≤ 2 ^ 64) (hj : j < h.p_memsz) :
    f.image m h (h.p_vaddr + j) = (f.segment h).getD j 0 := by
  by_cases hin : j < (f.segment h).length
  · rw [File.image, overwrite_inside (by omega) (by omega) (by omega), Nat.add_sub_cancel_left]
  · rw [File.image, overwrite_outside (by omega) (by omega) (by omega), overwrite_inside _ (by omega),
      Nat.add_sub_cancel_left, List.getD_eq_default _ _ (Nat.le_of_not_lt hin)]
    · exact List.getD_replicate _ hj
    · rw [length_replicate]
      omega
    · rwa [length_replicate]

theorem foldl_image_outside {hs : List ProgramHeader}
    (hlen : ∀ h ∈ hs, (f.segment h).length ≤ h.p_memsz)
    (hwrap : ∀ h ∈ hs, h.p_vaddr + h.p_memsz ≤ 2 ^ 64) (ha : a < 2 ^ 64)
    (hout : ∀ h ∈ hs, ¬ h.Has a) : hs.foldl f.image m a = m a := by
  induction hs generalizing m with
  | nil => rfl
  | cons h hs ih =>
    obtain ⟨hlen0, hlen⟩ := List.forall_mem_cons.mp hlen
    obtain ⟨hwrap0, hwrap⟩ := List.forall_mem_cons.mp hwrap
    obtain ⟨hout0, hout⟩ := List.forall_mem_cons.mp hout
    rw [List.foldl_cons, ih hlen hwrap hout, image_outside hlen0 hwrap0 ha hout0]

/-- Segments that are apart do not undo each other. -/
theorem foldl_image_inside {hs : List ProgramHeader}
    (hlen : ∀ h ∈ hs, (f.segment h).length ≤ h.p_memsz)
    (hwrap : ∀ h ∈ hs, h.p_vaddr + h.p_memsz ≤ 2 ^ 64)
    (hapart : hs.Pairwise fun g h => ∀ a, g.Has a → ¬ h.Has a) (hh : h ∈ hs) (hj : j < h.p_memsz) :
    hs.foldl f.image m (h.p_vaddr + j) = (f.segment h).getD j 0 := by
  induction hs generalizing m with
  | nil => cases hh
  | cons g hs ih =>
    obtain ⟨hlen0, hlen'⟩ := List.forall_mem_cons.mp hlen
    obtain ⟨hwrap0, hwrap'⟩ := List.forall_mem_cons.mp hwrap
    obtain ⟨hapart0, hapart'⟩ := List.pairwise_cons.mp hapart
    rw [List.foldl_cons]
    rcases mem_cons.mp hh with rfl | hh
    · have hhas : h.Has (h.p_vaddr + j) := ⟨Nat.le_add_right _ _, by omega⟩
      rw [foldl_image_outside hlen' hwrap' (by omega) fun g hg => hapart0 g hg _ hhas,
        image_inside hlen0 hwrap0 hj]
    · exact ih hlen' hwrap' hapart' hh

end Image

/-! ## Pages -/

section Pages

variable {f : File} {h : ProgramHeader} {hs : List ProgramHeader}

theorem pages_loopPages (hwrap : h.p_vaddr + h.p_memsz ≤ 2 ^ 47) :
    h.pages.map pageOf = loopPages h := by
  have hmod : (h.p_vaddr + h.p_memsz) % 2 ^ 64 = h.p_vaddr + h.p_memsz :=
    Nat.mod_eq_of_lt (by omega)
  rw [ProgramHeader.pages, hmod, Nat.add_sub_cancel_left, loopPages, map_pageOf_pagesFrom (by omega)]

theorem flatMap_pages (hwrap : ∀ h ∈ hs, h.p_vaddr + h.p_memsz ≤ 2 ^ 47) :
    (hs.flatMap ProgramHeader.pages).map pageOf = hs.flatMap loopPages := by
  rw [List.map_flatMap]
  exact List.flatMap_congr fun h hh => pages_loopPages (hwrap h hh)

theorem pages_mem_low (hwrap : h.p_vaddr + h.p_memsz ≤ 2 ^ 47) {v : VAddr} (hv : v ∈ h.pages) :
    Low v ∧ h.Has v.toNat := by
  have hmod : (h.p_vaddr + h.p_memsz) % 2 ^ 64 = h.p_vaddr + h.p_memsz :=
    Nat.mod_eq_of_lt (by omega)
  rw [ProgramHeader.pages, mem_pagesFrom (by omega)] at hv
  have hin : h.Has v.toNat := ⟨by omega, by omega⟩
  exact ⟨Nat.lt_of_lt_of_le hin.2 hwrap, hin⟩

theorem segmentsFit_iff {mapped : List VAddr} : SegmentsFit f hs mapped ↔
    ∀ pre h post, hs = pre ++ h :: post → h.p_vaddr + h.p_memsz < 2 ^ 64 ∧
      ∀ j < max h.p_memsz (f.segment h).length,
        OnPages ((mapped ++ (pre ++ [h]).flatMap ProgramHeader.pages).map pageOf)
          (h.p_vaddr + j) := by
  constructor
  · intro hfit
    induction hfit with
    | nil mapped =>
      intro pre h post he
      exact absurd he.symm (List.append_ne_nil_of_right_ne_nil _ (List.cons_ne_nil _ _))
    | cons g hs mapped hrange hbytes _ ih =>
      intro pre h post he
      cases pre with
      | nil =>
        obtain ⟨rfl, rfl⟩ := List.cons.inj he
        rw [List.nil_append, List.flatMap_cons, List.flatMap_nil, append_nil]
        exact ⟨hrange, hbytes⟩
      | cons g' pre =>
        obtain ⟨rfl, hrest⟩ := List.cons.inj he
        rw [List.cons_append, List.flatMap_cons, ← append_assoc]
        exact ih pre h post hrest
  · intro hall
    induction hs generalizing mapped with
    | nil => exact .nil mapped
    | cons g hs ih =>
      obtain ⟨hrange, hbytes⟩ := hall [] g hs rfl
      rw [List.nil_append, List.flatMap_cons, List.flatMap_nil, append_nil] at hbytes
      refine .cons g hs mapped hrange hbytes (ih fun pre h post he => ?_)
      have hrest := hall (g :: pre) h post (congrArg (g :: ·) he)
      rwa [List.cons_append, List.flatMap_cons, ← append_assoc] at hrest

end Pages

/-! ## Segments within a page -/

/-- The first sixteen bytes of a page, and one of them in the file. -/
def lowPart : ProgramHeader := ⟨1, 0, 0x400000, 1, 16⟩

/-- Sixteen bytes of the same page. -/
def highPart : ProgramHeader := ⟨1, 0, 0x400800, 1, 16⟩

theorem segments_lowPart : segments (fileOf [lowPart]).data = [lowPart] := by decide +kernel

theorem segments_both : segments (fileOf [lowPart, highPart]).data = [lowPart, highPart] := by
  decide +kernel

theorem program_lowPart : Program (fileOf [lowPart]).data where
  magic := by decide +kernel
  complete := ⟨by decide +kernel, by decide +kernel, by decide +kernel⟩
  sizes := by rw [segments_lowPart]; decide
  user := by rw [segments_lowPart]; decide
  apart := by rw [segments_lowPart]; exact List.pairwise_singleton _ _
  stack := by
    rw [segments_lowPart, List.forall_mem_singleton]
    rintro a ⟨-, hlt⟩
    have hlt' : a < 0x400000 + 16 := hlt
    omega

theorem program_both : Program (fileOf [lowPart, highPart]).data where
  magic := by decide +kernel
  complete := ⟨by decide +kernel, by decide +kernel, by decide +kernel⟩
  sizes := by rw [segments_both]; decide
  user := by rw [segments_both]; decide
  apart := by
    rw [segments_both, List.pairwise_pair]
    rintro a ⟨-, hlt⟩ ⟨hle, -⟩
    have hlt' : a < 0x400000 + 16 := hlt
    have hle' : 0x400800 ≤ a := hle
    omega
  stack := by
    refine List.forall_mem_cons.mpr ⟨?_, List.forall_mem_singleton.mpr ?_⟩
    · rintro a ⟨-, hlt⟩
      have hlt' : a < 0x400000 + 16 := hlt
      omega
    · rintro a ⟨-, hlt⟩
      have hlt' : a < 0x400800 + 16 := hlt
      omega

/-! ## Programs are loaded -/

section Programs

variable {f : File} {h : ProgramHeader} (hlen : f.data.length < 2 ^ 64) (hp : Program f.data)

include hlen hp

theorem Program.loads_eq : loads f.programHeaders = segments f.data := by
  rw [hp.complete.programHeaders_eq hlen, segments]

theorem Program.segment_eq (hh : h ∈ segments f.data) :
    f.segment h = (f.data.drop h.p_offset).take h.p_filesz :=
  hp.complete.segment_eq hlen (by rwa [hp.loads_eq hlen])

theorem Program.length_segment (hh : h ∈ segments f.data) :
    (f.segment h).length ≤ h.p_memsz := by
  rw [hp.segment_eq hlen hh]
  exact Nat.le_trans (List.length_take_le _ _) (hp.sizes h hh)

theorem Program.segment_getD (hh : h ∈ segments f.data) (j : Nat) :
    (f.segment h).getD j 0 = segmentByte f.data h j := by
  rw [hp.segment_eq hlen hh, List.getD_eq_getElem?_getD, List.getElem?_take, segmentByte]
  split
  · rw [List.getElem?_drop, bytesOf, List.getD_eq_getElem?_getD]
  · rfl

theorem Program.pages_eq :
    f.pages.map pageOf = (segments f.data).flatMap loopPages ++ List.range' 0xf000000 4 := by
  rw [File.pages, hp.loads_eq hlen, List.map_append, flatMap_pages hp.user, stackPages_pages]

theorem Program.pages_low : ∀ v ∈ f.pages, Low v := by
  intro v hv
  rw [File.pages, hp.loads_eq hlen, mem_append, List.mem_flatMap] at hv
  rcases hv with ⟨h, hh, hv⟩ | hv
  · exact (pages_mem_low (hp.user h hh) hv).1
  · exact stackPages_low hv

/-- The loops for the segments do not come to the stack. -/
theorem Program.pages_nodup_iff :
    (f.pages.map pageOf).Nodup ↔ ((segments f.data).flatMap loopPages).Nodup := by
  rw [hp.pages_eq hlen, List.nodup_append']
  refine ⟨fun h => h.1, fun hnodup => ⟨hnodup, List.nodup_range', ?_⟩⟩
  intro page hpage hstack
  rw [← flatMap_pages hp.user, mem_map] at hpage
  obtain ⟨v, hv, rfl⟩ := hpage
  obtain ⟨h, hh, hv⟩ := List.mem_flatMap.mp hv
  have haway := hp.stack h hh _ (pages_mem_low (hp.user h hh) hv).2
  have htop : stackTop = 0xf000004000 := rfl
  have hstack' : 0xf000000 ≤ v.toNat / 4096 ∧ v.toNat / 4096 < 0xf000000 + 4 :=
    List.mem_range'_1.mp hstack
  omega

theorem Program.fit_iff : SegmentsFit f (loads f.programHeaders) [] ↔
    ∀ pre h post, segments f.data = pre ++ h :: post → ∀ a, h.Has a →
      a / 4096 ∈ (pre ++ [h]).flatMap loopPages := by
  rw [hp.loads_eq hlen, segmentsFit_iff]
  refine forall₄_congr fun pre h post he => ?_
  have hmem : ∀ g ∈ pre ++ [h], g ∈ segments f.data := by
    intro g hg
    rw [he, List.append_cons]
    exact mem_append_left _ hg
  have hh := hmem h List.mem_concat_self
  have huser := hp.user h hh
  rw [List.nil_append, flatMap_pages fun g hg => hp.user g (hmem g hg),
    max_eq_left (hp.length_segment hlen hh)]
  constructor
  · rintro ⟨-, hon⟩ a ⟨hle, hlt⟩
    have hpage := (hon (a - h.p_vaddr) (by omega)).2
    rwa [Nat.add_sub_cancel' hle] at hpage
  · intro hcov
    refine ⟨by omega, fun j hj => ⟨by omega, hcov _ ⟨Nat.le_add_right _ _, by omega⟩⟩⟩

variable {R : Nat → Prop} {S : Nat} {w : World} {root rflags : Nat} {args : List Str} {m : Mem}

/-- **Programs are loaded as they should be** exactly when no two segments come to the same page,
and no last page is left out that is not there already. -/
theorem built_iff (hroomy : Roomy R S (9 * f.pages.length) w root) (hvacant : Vacant w root)
    (hflags : rflags.testBit 9 = true) (hfit : blockSize args ≤ 0x4000) :
    (∃ l st, exec f root args rflags w m = some (l, some st) ∧ Built f root l st) ↔
      Loops (segments f.data) := by
  have hlow := hp.pages_low hlen
  constructor
  · rintro ⟨l, st, hexec, hbuilt⟩
    obtain ⟨-, w', hmap, hpush, -⟩ := exec_started hexec
    obtain ⟨-, hnodup, -⟩ := mapPages_spec hroomy.dir hlow hroomy.stock.ready.sound hmap
    have hl : (pushArguments (f.loaded m w') stackTop args).1 = l := congrArg Prod.fst hpush
    have hok := hbuilt.written
    rw [← hl, events_ok_iff] at hok
    exact ⟨(hp.pages_nodup_iff hlen).mp hnodup, (hp.fit_iff hlen).mp hok.1⟩
  · intro hloops
    have hmagic : checkHeader f.header = true := by
      rw [hp.complete.checkHeader_eq hlen, hp.magic]
    obtain ⟨w', l, st, hmap, hexec⟩ : ∃ w' l st, mapPages w root f.pages = some w' ∧
        exec f root args rflags w m = some (l, some st) :=
      exec_starts hroomy hvacant hmagic hflags hlow ((hp.pages_nodup_iff hlen).mpr hloops.once)
    obtain ⟨-, w₁, hmap₁, hpush, hrip⟩ := exec_started hexec
    obtain rfl := Option.some.inj (hmap.symm.trans hmap₁)
    obtain ⟨-, -, -, hmapped, -⟩ := mapPages_spec hroomy.dir hlow hroomy.stock.ready.sound hmap
    have hl : (pushArguments (f.loaded m w') stackTop args).1 = l := congrArg Prod.fst hpush
    have hworld : l.world = w' := by
      rw [← hl, pushArguments_eq]
      exact ((f.loaded m w').writes_spec _).2.2.trans (by rw [File.loaded])
    have hblock := exec_block hexec hfit
    have hrsp := (hblock.separate hfit).stack
    refine ⟨l, st, hexec, hrip.trans (hp.complete.entry_eq hlen), ?_, fun h hh a ha => ?_,
      fun h hh j hj => ?_⟩
    · rw [← hl, events_ok_iff]
      exact ⟨(hp.fit_iff hlen).mpr hloops.covered, argumentsFit_of_le hfit⟩
    · have hlt := Nat.lt_of_lt_of_le ha.2 (hp.user h hh)
      have hnat : (BitVec.ofNat 64 a).toNat = a := by
        rw [BitVec.toNat_ofNat]
        omega
      obtain ⟨pre, post, he⟩ := List.append_of_mem hh
      have hpage : pageOf (BitVec.ofNat 64 a) = a / 4096 := congrArg (· / 4096) hnat
      have hin := hloops.covered pre h post he a ha
      rw [hworld]
      refine hmapped _ (by show _ < 2 ^ 47; rwa [hnat]) ?_
      rw [hpage, hp.pages_eq hlen, mem_append, he, List.append_cons, List.flatMap_append]
      exact .inl (mem_append_left _ hin)
    · have huser := hp.user h hh
      have haway := hp.stack h hh (h.p_vaddr + j) ⟨Nat.le_add_right _ _, by omega⟩
      rw [hblock.others _ (by omega) (by omega), hp.loads_eq hlen,
        foldl_image_inside (fun g hg => hp.length_segment hlen hg)
          (fun g hg => (hp.user g hg).trans (by decide)) hp.apart hh hj,
        hp.segment_getD hlen hh]

end Programs

/-- A program with one small segment. -/
theorem built_iff_lowPart : ∃ w root l st,
    exec (fileOf [lowPart]) root [] 0x200 w (fun _ => 0) = some (l, some st) ∧
      Built (fileOf [lowPart]) root l st := by
  obtain ⟨w, root, hroomy, hvacant, -⟩ := exists_process
  have hlen : (fileOf [lowPart]).data.length < 2 ^ 64 := by decide +kernel
  have hcount : (fileOf [lowPart]).pages.length = 5 := by decide +kernel
  have hloops : Loops (segments (fileOf [lowPart]).data) := by
    rw [segments_lowPart]
    refine ⟨by decide, fun pre h post he a ha => ?_⟩
    obtain ⟨rfl, hone⟩ : pre = [] ∧ h = lowPart := by
      cases pre with
      | nil => exact ⟨rfl, (List.cons.inj he).1.symm⟩
      | cons g pre => exact absurd (List.cons.inj he).2.symm (by simp)
    subst hone
    have hle : 0x400000 ≤ a := ha.1
    have hlt : a < 0x400000 + 16 := ha.2
    have hpage : a / 4096 = 0x400 := by omega
    rw [hpage]
    decide
  exact ⟨w, root, (built_iff hlen program_lowPart (hroomy.mono (by rw [hcount]; decide)) hvacant
    (by decide) (by decide)).mpr hloops⟩

/-- Two segments in one page: the second comes to a page that is mapped already. -/
theorem shared_page_stops : Program (fileOf [lowPart, highPart]).data ∧ ∃ R w root,
    Roomy R 2 98 w root ∧ Vacant w root ∧
      exec (fileOf [lowPart, highPart]) root [] 0x200 w (fun _ => 0) = none := by
  obtain ⟨w, root, hroomy, hvacant, -⟩ := exists_process
  refine ⟨program_both, _, w, root, hroomy, hvacant, ?_⟩
  have hlen : (fileOf [lowPart, highPart]).data.length < 2 ^ 64 := by decide +kernel
  have hmagic : checkHeader (fileOf [lowPart, highPart]).header = true := by decide +kernel
  rw [exec_eq hmagic]
  cases hmap : mapPages w root (fileOf [lowPart, highPart]).pages with
  | none => rfl
  | some w' =>
    obtain ⟨-, hnodup, -⟩ := mapPages_spec hroomy.dir (program_both.pages_low hlen)
      hroomy.stock.ready.sound hmap
    rw [program_both.pages_nodup_iff hlen, segments_both] at hnodup
    exact absurd hnodup (by decide)

end Flix.Exec

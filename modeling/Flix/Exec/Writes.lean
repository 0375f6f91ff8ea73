import Flix.Exec.Arguments
import Flix.Exec.Truncated

/-!
# Where a program is loaded to

Nothing that `elf::exec` takes from the file is checked before it is written to. So it stays
in the new program's memory when the file is well behaved, and only then: each segment must
be on pages that its own loop or an earlier one has mapped, with all its bytes, and so must
the arguments.

The writes for the arguments are a list of their own. As long as one of them ends where the
one before has started, they are the bytes from `top` down to the stack pointer, and one that
wraps is at the end of the address space, where nothing is mapped.
-/

namespace Flix.Exec

open Bytes Paging Fs

/-! ## The writes for the arguments -/

/-- `curPos` behind the strings. -/
def stringEnd (c : Nat) (args : List Str) : Nat :=
  args.foldl (fun c arg => back c (arg.length + 1)) c

/-- A write: where, and what. -/
abbrev Chunk := Nat × List UInt8

def stringWrites (c : Nat) : List Str → List Chunk
  | [] => []
  | arg :: args =>
    (back c (arg.length + 1), arg ++ [0]) :: stringWrites (back c (arg.length + 1)) args

def pointerWrites (e : Nat) : List Nat → List Chunk
  | [] => []
  | p :: address => (e, word p) :: pointerWrites ((e + 8) % 2 ^ 64) address

/-- Where the strings are. -/
def stringStarts (c : Nat) (args : List Str) : List Nat := (stringWrites c args).map Prod.fst

/-- Where the array of pointers starts. -/
def arrayStart (top : Nat) (args : List Str) : Nat :=
  back (back (stringEnd top args) 8) (8 * args.length)

def argumentWrites (top : Nat) (args : List Str) : List Chunk :=
  stringWrites top args ++ (back (stringEnd top args) 8, word 0) ::
    (pointerWrites (arrayStart top args) (stringStarts top args) ++
      [(back (arrayStart top args) 8, word args.length)])

/-- Writes, one after the other. -/
def Loading.writes (l : Loading) (cs : List Chunk) : Loading :=
  cs.foldl (fun l c => l.write c.1 c.2) l

section Equations

variable {l : Loading}

theorem Loading.writes_append (cs ds : List Chunk) :
    l.writes (cs ++ ds) = (l.writes cs).writes ds := List.foldl_append

theorem Loading.writes_cons (c : Chunk) (cs : List Chunk) :
    l.writes (c :: cs) = (l.write c.1 c.2).writes cs := List.foldl_cons ..

/-- Writes leave events, and the pages as they are. -/
theorem Loading.writes_spec (cs : List Chunk) :
    (l.writes cs).events = l.events ++ cs.map (fun c => .write c.1 c.2 l.mapped) ∧
      (l.writes cs).mapped = l.mapped ∧ (l.writes cs).world = l.world := by
  induction cs generalizing l with
  | nil => exact ⟨(append_nil _).symm, rfl, rfl⟩
  | cons c cs ih =>
    rw [Loading.writes_cons]
    obtain ⟨hevents, hmapped, hworld⟩ := @ih (l.write c.1 c.2)
    refine ⟨?_, hmapped, hworld⟩
    rw [hevents]
    exact append_assoc ..

theorem pushStrings_eq : ∀ (args : List Str) (l : Loading) (c : Nat) (address : List Nat),
    pushStrings l c address args =
      (l.writes (stringWrites c args), stringEnd c args, address ++ stringStarts c args)
  | [], l, c, address => by
    rw [pushStrings, stringStarts, stringWrites, List.map_nil, append_nil]
    rfl
  | arg :: args, l, c, address => by
    rw [pushStrings, pushStrings_eq args, append_assoc]
    rfl

theorem pushPointers_eq : ∀ (address : List Nat) (l : Loading) (e : Nat),
    pushPointers l e address = l.writes (pointerWrites e address)
  | [], _, _ => rfl
  | p :: address, l, e => by
    rw [pushPointers, pushPointers_eq address]
    rfl

theorem length_stringStarts : ∀ (c : Nat) (args : List Str),
    (stringStarts c args).length = args.length
  | _, [] => rfl
  | c, arg :: args => congrArg (· + 1) (length_stringStarts (back c (arg.length + 1)) args)

theorem pushArguments_eq (top : Nat) (args : List Str) :
    pushArguments l top args =
      (l.writes (argumentWrites top args), back (arrayStart top args) 8) := by
  unfold pushArguments
  simp only [pushStrings_eq, List.nil_append, length_stringStarts, pushPointers_eq]
  rw [argumentWrites, Loading.writes_append, Loading.writes_cons, Loading.writes_append]
  rfl

end Equations

/-! ## Where they are -/

/-- The address is in the lower half, on one of the pages. -/
def OnPages (pages : List Nat) (a : Nat) : Prop := a < 2 ^ 47 ∧ a / 4096 ∈ pages

/-- All bytes of a write are on the pages. -/
def Inside (pages : List Nat) (c : Chunk) : Prop :=
  ∀ j < c.2.length, OnPages pages ((c.1 + j) % 2 ^ 64)

section Where

variable {pages : List Nat}

variable {bytes : List UInt8}

theorem inside_mk {v : Nat} :
    Inside pages (v, bytes) ↔ ∀ j < bytes.length, OnPages pages ((v + j) % 2 ^ 64) := Iff.rfl

/-- Bytes from `v` on. A write that wraps comes to the last address of all. -/
theorem inside_iff {v : Nat} (hv : v < 2 ^ 64) :
    Inside pages (v, bytes) ↔ ∀ j < bytes.length, OnPages pages (v + j) := by
  rw [inside_mk]
  constructor
  · intro h j hj
    have hlast : v + j < 2 ^ 64 := by
      by_contra hwrap
      have hlow := (h (2 ^ 64 - 1 - v) (by omega)).1
      omega
    have hon := h j hj
    rwa [Nat.mod_eq_of_lt hlast] at hon
  · intro h j hj
    have hon := h j hj
    have hlow := hon.1
    rwa [Nat.mod_eq_of_lt (by omega)]

theorem inside_back_iff {c n : Nat} (hc : c ≤ 2 ^ 47) (hn : bytes.length = n) :
    Inside pages (back c n, bytes) ↔ n ≤ c ∧ ∀ a, c - n ≤ a → a < c → OnPages pages a := by
  subst hn
  rw [inside_mk]
  constructor
  · intro h
    have hle : bytes.length ≤ c := by
      by_contra hwrap
      have hlow := (h (bytes.length - c - 1) (by omega)).1
      unfold back at hlow
      omega
    refine ⟨hle, fun a hca hac => ?_⟩
    have hon := h (a - (c - bytes.length)) (by omega)
    rw [back_eq (by omega) hle, Nat.mod_eq_of_lt (by omega)] at hon
    have ha : c - bytes.length + (a - (c - bytes.length)) = a := by omega
    rwa [ha] at hon
  · rintro ⟨hle, h⟩ j hj
    rw [back_eq (by omega) hle]
    exact h _ (by omega) (by omega)

theorem inside_strings_iff : ∀ {args : List Str} {c : Nat}, c ≤ 2 ^ 47 →
    ((∀ x ∈ stringWrites c args, Inside pages x) ↔
      stringBytes args ≤ c ∧ ∀ a, c - stringBytes args ≤ a → a < c → OnPages pages a)
  | [], c, _ => by
    refine iff_of_true (fun x hx => absurd hx not_mem_nil) ⟨Nat.zero_le _, fun a ha hac => ?_⟩
    exact absurd ha (Nat.not_le.mpr hac)
  | arg :: args, c, hc => by
    have hlen : (arg ++ [(0 : UInt8)]).length = arg.length + 1 := length_append
    rw [stringWrites, List.forall_mem_cons, inside_back_iff hc hlen, stringBytes_cons]
    constructor
    · rintro ⟨⟨hle, hfirst⟩, hrest⟩
      rw [back_eq (by omega) hle, inside_strings_iff (by omega)] at hrest
      refine ⟨by omega, fun a ha hac => ?_⟩
      by_cases hlt : a < c - (arg.length + 1)
      · exact hrest.2 a (by omega) hlt
      · exact hfirst a (by omega) hac
    · rintro ⟨hle, h⟩
      refine ⟨⟨by omega, fun a ha hac => h a (by omega) hac⟩, ?_⟩
      rw [back_eq (by omega) (by omega), inside_strings_iff (by omega)]
      exact ⟨by omega, fun a ha hac => h a (by omega) (by omega)⟩

theorem inside_pointers_iff : ∀ {address : List Nat} {e : Nat}, e + 8 * address.length ≤ 2 ^ 63 →
    ((∀ x ∈ pointerWrites e address, Inside pages x) ↔
      ∀ a, e ≤ a → a < e + 8 * address.length → OnPages pages a)
  | [], e, _ => by
    refine iff_of_true (fun x hx => absurd hx not_mem_nil) fun a ha hac => ?_
    exact absurd ha (Nat.not_le.mpr hac)
  | p :: address, e, he => by
    rw [length_cons] at he ⊢
    rw [pointerWrites, List.forall_mem_cons, inside_iff (by omega), length_word,
      Nat.mod_eq_of_lt (by omega), inside_pointers_iff (by omega)]
    constructor
    · rintro ⟨hfirst, hrest⟩ a hea hlt
      by_cases hin : a < e + 8
      · have hon := hfirst (a - e) (by omega)
        rwa [Nat.add_sub_cancel' hea] at hon
      · exact hrest a (by omega) (by omega)
    · intro h
      exact ⟨fun j hj => h _ (by omega) (by omega), fun a ha hlt => h a (by omega) (by omega)⟩

theorem stringEnd_eq : ∀ {args : List Str} {c : Nat}, c < 2 ^ 64 → stringBytes args ≤ c →
    stringEnd c args = c - stringBytes args
  | [], _, _, _ => rfl
  | arg :: args, c, hc, hle => by
    rw [stringBytes_cons] at hle
    rw [stringEnd, List.foldl_cons, back_eq hc (by omega), stringBytes_cons]
    have hrest := @stringEnd_eq args (c - (arg.length + 1)) (by omega) (by omega)
    rw [stringEnd] at hrest
    rw [hrest]
    omega

theorem card_le_stringBytes : ∀ args : List Str, args.length ≤ stringBytes args
  | [] => Nat.le_refl _
  | arg :: args => by
    have := card_le_stringBytes args
    rw [stringBytes_cons, length_cons]
    omega

/-- The arguments: all of them are on the pages exactly when the whole block is. -/
theorem inside_arguments_iff {args : List Str} {top : Nat} (htop : top ≤ 2 ^ 47) :
    (∀ x ∈ argumentWrites top args, Inside pages x) ↔
      blockSize args ≤ top ∧ ∀ a, top - blockSize args ≤ a → a < top → OnPages pages a := by
  rw [argumentWrites, List.forall_mem_append, List.forall_mem_cons, List.forall_mem_append,
    List.forall_mem_singleton, inside_strings_iff htop]
  have hn := card_le_stringBytes args
  unfold blockSize
  constructor
  · rintro ⟨⟨hS, hstrings⟩, hnull, hpointers, hcount⟩
    rw [stringEnd_eq (by omega) hS, inside_back_iff (by omega) (length_word 0)] at hnull
    have hstart : arrayStart top args =
        back (top - stringBytes args - 8) (8 * args.length) := by
      rw [arrayStart, stringEnd_eq (by omega) hS, back_eq (by omega) hnull.1]
    -- the array does not wrap: its first element would be at the end of the address space
    have h8n : 8 * args.length ≤ top - stringBytes args - 8 := by
      by_contra hwrap
      obtain ⟨p, address, haddr⟩ : ∃ p address, stringStarts top args = p :: address := by
        refine List.exists_cons_of_ne_nil fun hnil => ?_
        have hlen := length_stringStarts top args
        rw [hnil, List.length_nil] at hlen
        omega
      rw [haddr] at hpointers
      have hlow := (hpointers _ mem_cons_self 0 (by rw [length_word]; decide)).1
      rw [hstart, back] at hlow
      omega
    rw [hstart, back_eq (by omega) h8n] at hpointers hcount
    rw [inside_pointers_iff (by rw [length_stringStarts]; omega), length_stringStarts] at hpointers
    rw [inside_back_iff (by omega) (length_word _)] at hcount
    refine ⟨by omega, fun a ha hlt => ?_⟩
    by_cases h1 : top - stringBytes args ≤ a
    · exact hstrings a h1 hlt
    by_cases h2 : top - stringBytes args - 8 ≤ a
    · exact hnull.2 a h2 (by omega)
    by_cases h3 : top - stringBytes args - 8 - 8 * args.length ≤ a
    · exact hpointers a h3 (by omega)
    · exact hcount.2 a (by omega) (by omega)
  · rintro ⟨hle, h⟩
    have hstart : arrayStart top args = top - stringBytes args - 8 - 8 * args.length := by
      have hnull : back (top - stringBytes args) 8 = top - stringBytes args - 8 :=
        back_eq (by omega) (by omega)
      rw [arrayStart, stringEnd_eq (by omega) (by omega), hnull, back_eq (by omega) (by omega)]
    refine ⟨⟨by omega, fun a ha hlt => h a (by omega) hlt⟩, ?_, ?_, ?_⟩
    · rw [stringEnd_eq (by omega) (by omega), inside_back_iff (by omega) (length_word 0)]
      exact ⟨by omega, fun a ha hlt => h a (by omega) (by omega)⟩
    · rw [inside_pointers_iff (by rw [length_stringStarts]; omega), length_stringStarts]
      exact fun a ha hlt => h a (by omega) (by omega)
    · rw [inside_back_iff (by omega) (length_word _)]
      exact ⟨by omega, fun a ha hlt => h a (by omega) (by omega)⟩

end Where

/-! ## What is allowed -/

/-- A range does not wrap, and a write stays on pages of the lower half that `exec` has mapped
before. -/
def Event.Ok : Event → Prop
  | .range start size => start + size < 2 ^ 64
  | .write start bytes mapped => Inside (mapped.map pageOf) (start, bytes)

/-- `exec` comes back, or starts the program, and all it does on the way is allowed. -/
def Safe (o : Option (Loading × Option Start)) : Prop :=
  ∃ l st, o = some (l, st) ∧ ∀ e ∈ l.events, e.Ok

/-- Every segment has a range that does not wrap, and all that is cleared or read for it is on
pages of its own loop or of those before. -/
inductive SegmentsFit (f : File) : List ProgramHeader → List VAddr → Prop
  | nil (mapped : List VAddr) : SegmentsFit f [] mapped
  | cons (h : ProgramHeader) (hs : List ProgramHeader) (mapped : List VAddr)
      (range : h.p_vaddr + h.p_memsz < 2 ^ 64)
      (bytes : ∀ j < max h.p_memsz (f.segment h).length,
        OnPages ((mapped ++ h.pages).map pageOf) (h.p_vaddr + j))
      (rest : SegmentsFit f hs (mapped ++ h.pages)) : SegmentsFit f (h :: hs) mapped

/-- The arguments have room below the top of the stack, on pages that were mapped. -/
def ArgumentsFit (f : File) (args : List Str) : Prop :=
  blockSize args ≤ stackTop ∧
    ∀ a, stackTop - blockSize args ≤ a → a < stackTop → OnPages (f.pages.map pageOf) a

section Allowed

variable {f : File} {root rflags : Nat} {args : List Str} {w w' : World} {m : Mem}

theorem loadEvents_ok_iff : ∀ {hs : List ProgramHeader} {mapped : List VAddr},
    (∀ h ∈ hs, h.p_vaddr < 2 ^ 64) →
      ((∀ e ∈ loadEvents f hs mapped, e.Ok) ↔ SegmentsFit f hs mapped)
  | [], _, _ => iff_of_true (fun e he => absurd he not_mem_nil) (.nil _)
  | h :: hs, mapped, hv => by
    have hv0 := hv h mem_cons_self
    rw [loadEvents, List.forall_mem_cons, List.forall_mem_cons, List.forall_mem_cons,
      loadEvents_ok_iff fun g hg => hv g (mem_cons_of_mem h hg), Event.Ok, Event.Ok,
      Event.Ok, inside_iff hv0, inside_iff hv0, length_replicate]
    constructor
    · rintro ⟨hrange, hclear, hread, hrest⟩
      refine .cons h hs mapped hrange (fun j hj => ?_) hrest
      rcases lt_max_iff.mp hj with hj | hj
      · exact hclear j hj
      · exact hread j hj
    · intro hfit
      cases hfit with
      | cons _ _ _ hrange hbytes hrest =>
        exact ⟨hrange, fun j hj => hbytes j (lt_max_of_lt_left hj),
          fun j hj => hbytes j (lt_max_of_lt_right hj), hrest⟩

theorem vaddr_lt {h : ProgramHeader} (hh : h ∈ loads f.programHeaders) : h.p_vaddr < 2 ^ 64 := by
  rw [loads, List.mem_filter, File.programHeaders, mem_map] at hh
  obtain ⟨⟨i, -, rfl⟩, -⟩ := hh
  exact Nat.lt_of_lt_of_eq (readLE_lt _ 8 _) (by norm_num)

theorem events_ok_iff :
    (∀ e ∈ (pushArguments (f.loaded m w') stackTop args).1.events, e.Ok) ↔
      SegmentsFit f (loads f.programHeaders) [] ∧ ArgumentsFit f args := by
  have hevents : (f.loaded m w').events = loadEvents f (loads f.programHeaders) [] := by
    rw [File.loaded]
  rw [pushArguments_eq]
  obtain ⟨hwrites, -, -⟩ := (f.loaded m w').writes_spec (argumentWrites stackTop args)
  rw [hwrites, List.forall_mem_append, hevents, List.forall_mem_map,
    loadEvents_ok_iff fun h hh => vaddr_lt hh, ArgumentsFit, ← inside_arguments_iff (by decide)]
  rfl

/-- In a program whose segments fit, the loops stay in the lower half. -/
theorem SegmentsFit.pages_low : ∀ {hs : List ProgramHeader} {mapped : List VAddr},
    SegmentsFit f hs mapped → ∀ v ∈ hs.flatMap ProgramHeader.pages, Low v
  | _, _, .nil _, v, hv => absurd hv not_mem_nil
  | _, _, .cons h hs mapped hrange hbytes hrest, v, hv => by
    rw [List.flatMap_cons, mem_append] at hv
    rcases hv with hv | hv
    · rw [ProgramHeader.pages, Nat.mod_eq_of_lt hrange] at hv
      obtain ⟨k, hk, hv⟩ := mem_map.mp hv
      have hk := mem_range.mp hk
      have hlow := (hbytes (k * 4096) (lt_max_of_lt_left (by omega))).1
      show v.toNat < 2 ^ 47
      rw [← hv, BitVec.toNat_ofNat]
      omega
    · exact pages_low hrest v hv

theorem pages_low (h : SegmentsFit f (loads f.programHeaders) []) : ∀ v ∈ f.pages, Low v := by
  intro v hv
  rw [File.pages, mem_append] at hv
  rcases hv with hv | hv
  · exact h.pages_low v hv
  · exact stackPages_low hv

/-- **Where `exec` stays in the program's own memory.** A file with the magic number is loaded
without harm exactly when its segments and the arguments fit and the pages can be mapped. In
a new address space with enough memory they can if none of them comes twice. -/
theorem exec_safe_iff (f : File) (root : Nat) (args : List Str) (rflags : Nat) (w : World)
    (m : Mem) :
    (Safe (exec f root args rflags w m) ↔ checkHeader f.header = false ∨
      SegmentsFit f (loads f.programHeaders) [] ∧ ArgumentsFit f args ∧
        (mapPages w root f.pages).isSome = true ∧ rflags.testBit 9 = true) ∧
    ∀ R S, Roomy R S (9 * f.pages.length) w root → Vacant w root →
      SegmentsFit f (loads f.programHeaders) [] →
        ((mapPages w root f.pages).isSome = true ↔ (f.pages.map pageOf).Nodup) := by
  refine ⟨⟨?_, ?_⟩, fun R S hroomy hvacant hfit => ⟨fun hmap => ?_, fun hnodup => ?_⟩⟩
  · rintro ⟨l, st, hexec, hok⟩
    cases hmagic : checkHeader f.header with
    | false => exact .inl rfl
    | true =>
      rw [exec_eq hmagic] at hexec
      obtain ⟨w', hmap, hexec⟩ := bind_eq_some_iff.mp hexec
      obtain ⟨hflags, hexec⟩ := assert_bind_eq_some.mp hexec
      obtain ⟨rfl, -⟩ := Prod.mk.inj (Option.some.inj hexec)
      obtain ⟨hsegments, hargs⟩ := events_ok_iff.mp hok
      exact .inr ⟨hsegments, hargs, by rw [hmap]; rfl, hflags⟩
  · intro h
    cases hmagic : checkHeader f.header with
    | false => exact ⟨_, _, exec_reject hmagic, fun e he => absurd he not_mem_nil⟩
    | true =>
      obtain ⟨hsegments, hargs, hmap, hflags⟩ := h.resolve_left (by rw [hmagic]; decide)
      obtain ⟨w', hmap⟩ := isSome_iff_exists.mp hmap
      rw [exec_eq hmagic, hmap, bind_some, assert_pos hflags]
      exact ⟨_, _, rfl, events_ok_iff.mpr ⟨hsegments, hargs⟩⟩
  · obtain ⟨w', hmap⟩ := isSome_iff_exists.mp hmap
    exact (mapPages_spec hroomy.dir (pages_low hfit) hroomy.stock.ready.sound hmap).2.1
  · have hlow := pages_low hfit
    obtain ⟨w', hmap, -⟩ := mapPages_total (k := 0) (by rwa [Nat.zero_add]) hlow hnodup
      fun v hv => hvacant v (hlow v hv)
    rw [hmap]
    rfl

/-- Arguments of at most the stack's size have room on it. -/
theorem argumentsFit_of_le (hfit : blockSize args ≤ 0x4000) : ArgumentsFit f args := by
  have htop : stackTop = 0xf000004000 := rfl
  refine ⟨blockSize_le_stackTop hfit, fun a hle hlt => ⟨by omega, ?_⟩⟩
  rw [File.pages, List.map_append, mem_append, stackPages_pages, List.mem_range'_1]
  exact .inr (by omega)

/-- A header alone is loaded without harm. -/
theorem exec_safe_iff_headerOnly :
    ∃ w root, Safe (exec headerOnly root [[108, 115]] 0x200 w fun _ => 0) := by
  obtain ⟨w, root, hroomy, hvacant, -⟩ := exists_process
  have hloads : loads headerOnly.programHeaders = [] := by decide +kernel
  have hpages : headerOnly.pages = stackPages := by
    rw [File.pages, hloads, List.flatMap_nil, List.nil_append]
  have hfit : SegmentsFit headerOnly (loads headerOnly.programHeaders) [] := hloads ▸ .nil []
  obtain ⟨hsafe, hmap⟩ := exec_safe_iff headerOnly root [[108, 115]] 0x200 w fun _ => 0
  have hroomy' := hroomy.mono (j := 9 * headerOnly.pages.length) (by rw [hpages]; decide)
  have hnodup : (headerOnly.pages.map pageOf).Nodup := by
    rw [hpages, stackPages_pages]
    exact List.nodup_range'
  exact ⟨w, root, hsafe.mpr (.inr ⟨hfit, argumentsFit_of_le (by decide),
    (hmap _ 2 hroomy' hvacant hfit).mpr hnodup, by decide⟩)⟩

end Allowed

/-! ## A segment in the kernel -/

def ProgramHeader.bytes (h : ProgramHeader) : List UInt8 :=
  (word h.p_type).take 4 ++ [0, 0, 0, 0] ++ word h.p_offset ++ word h.p_vaddr ++ word 0 ++
    word h.p_filesz ++ word h.p_memsz ++ word 0

/-- A file with these program headers, right behind the header. -/
def fileOf (hs : List ProgramHeader) : File where
  data := magic ++ List.replicate 28 0 ++ word 64 ++ List.replicate 14 0 ++ [56, 0] ++
    (word hs.length).take 2 ++ List.replicate 6 0 ++ hs.flatMap ProgramHeader.bytes
  around _ := 0
  locals _ _ := 0

/-- A file with one segment, which takes no memory and has one byte in the file. It goes where the
kernel starts, and no page is asked for. -/
def intruder : File := fileOf [⟨1, 0, 0xffffffffc0000000, 1, 0⟩]

theorem intruder_headers : intruder.programHeaders = [⟨1, 0, 0xffffffffc0000000, 1, 0⟩] := by
  decide +kernel

theorem intruder_pages : intruder.pages = stackPages := by
  decide +kernel

theorem intruder_magic : checkHeader intruder.header = true := by decide +kernel

theorem intruder_segment :
    intruder.segment ⟨1, 0, 0xffffffffc0000000, 1, 0⟩ = [0x7f] := by decide +kernel

theorem intruder_pages_nodup : (intruder.pages.map pageOf).Nodup := by
  rw [intruder_pages, stackPages_pages]
  exact List.nodup_range'

/-- The file is loaded, and its byte is written over the kernel. -/
theorem exec_writes_kernel : ∃ w root l st,
    exec intruder root [] 0x200 w (fun _ => 0) = some (l, some st) ∧
      .write 0xffffffffc0000000 [0x7f] [] ∈ l.events ∧
      ¬ Safe (exec intruder root [] 0x200 w fun _ => 0) := by
  obtain ⟨w, root, hroomy, hvacant, -⟩ := exists_process
  have hlow : ∀ v ∈ intruder.pages, Low v := fun v hv => stackPages_low (intruder_pages ▸ hv)
  obtain ⟨w', l, st, -, hexec⟩ : ∃ w' l st, mapPages w root intruder.pages = some w' ∧
      exec intruder root [] 0x200 w (fun _ => 0) = some (l, some st) :=
    exec_starts (hroomy.mono (by rw [intruder_pages]; decide)) hvacant intruder_magic (by decide)
      hlow intruder_pages_nodup
  have hload : .write 0xffffffffc0000000 [0x7f] [] ∈ l.events := by
    obtain ⟨-, w', -, hpush, -⟩ := exec_started hexec
    have hevents : (intruder.loaded (fun _ => 0) w').events =
        loadEvents intruder (loads intruder.programHeaders) [] := by rw [File.loaded]
    obtain ⟨hwrites, -, -⟩ :=
      (intruder.loaded (fun _ => 0) w').writes_spec (argumentWrites stackTop [])
    rw [pushArguments_eq] at hpush
    rw [← (Prod.mk.inj hpush).1, hwrites, hevents, intruder_headers]
    refine mem_append_left _ ?_
    have hloads : loads [⟨1, 0, 0xffffffffc0000000, 1, 0⟩] =
        [(⟨1, 0, 0xffffffffc0000000, 1, 0⟩ : ProgramHeader)] := by decide
    rw [hloads, loadEvents, intruder_segment]
    exact mem_cons_of_mem _ (mem_cons_of_mem _ mem_cons_self)
  refine ⟨w, root, l, st, hexec, hload, fun hsafe => ?_⟩
  obtain ⟨l', st', hexec', hok⟩ := hsafe
  obtain ⟨rfl, -⟩ := Prod.mk.inj (Option.some.inj (hexec.symm.trans hexec'))
  have hinside := (hok _ hload 0 (by decide)).1
  exact absurd hinside (by decide)

end Flix.Exec

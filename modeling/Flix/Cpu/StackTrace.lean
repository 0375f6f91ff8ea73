import Flix.Lib.Bytes
import Flix.Paging.Walk

/-!
# Stack traces

`Debug.cpp`. When a task has caused an exception, the kernel prints the chain of its
stack frames, from the `rbp` that the task had. A frame is two words, of which the
first is the address of the next frame, and nothing of it can be trusted. So each frame
is looked up in the page directory before it is read, and the next one has to be at a
higher address.

The addresses make sure that this comes to an end. What is looked up are the first bytes
of the two words, and a word has eight. The first word ends right before the second, so
that it lies in pages that have been looked up; but the second may end in a page that has
not. And the lookup does not see the highest 16 bits of an address, where the processor
does: an address in which they are not all equal to the bit below is looked up like one in
which they are, and faults when it is read.
-/

namespace Flix.StackTrace

open Radix Paging

/-! ## The model -/

/-- The current page directory. -/
structure Directory where
  tables : Store Entry
  root : Nat

/-- The contents of memory, as the task sees it. -/
abbrev Memory := VAddr → UInt8

/-- `isPageMapped`. -/
def Directory.isPageMapped (d : Directory) (vaddr : VAddr) : Option Bool := do
  match ← getEntry d.tables 0 3 d.root vaddr with
  | none => some false
  | some (t, i) => (d.tables t).map fun n => (n.entries i).p

/-- The word of 64 bits at an address. -/
def word (mem : Memory) (a : VAddr) : VAddr :=
  BitVec.ofNat 64 (Bytes.readLE (fun i => mem (a + BitVec.ofNat 64 i)) 0 8)

/-- What is printed. -/
inductive Line where
  | invalidPointer (p : VAddr)
  | address (p : VAddr)
  /-- "Stack going backward, aborting". -/
  | backward
  deriving DecidableEq

/-- What is printed, and the words that are read, by their addresses. -/
structure Trace where
  lines : List Line
  reads : List VAddr
  deriving DecidableEq

/-- The loop of `printStackTrace`, for at most `fuel` frames. -/
def printLoop (d : Directory) (mem : Memory) : Nat → VAddr → Option Trace
  | 0, _ => none
  | fuel + 1, stackFrame => do
      let first ← d.isPageMapped stackFrame
      let second ← if first then d.isPageMapped (stackFrame + 8) else some false
      if ¬ second then some ⟨[.invalidPointer stackFrame], []⟩
      else
        let ret := word mem (stackFrame + 8)
        if ret = 0 then some ⟨[], [stackFrame + 8]⟩
        else
          let up := word mem stackFrame
          if stackFrame ≥ up then
            some ⟨[.address ret, .backward], [stackFrame + 8, stackFrame]⟩
          else do
            let t ← printLoop d mem fuel up
            some ⟨.address ret :: t.lines, (stackFrame + 8) :: stackFrame :: t.reads⟩

/-- `printStackTrace`. There are no more frames than addresses. -/
def printStackTrace (d : Directory) (mem : Memory) (stackPointer : VAddr) : Option Trace :=
  printLoop d mem (2 ^ 64) stackPointer

/-- The addresses that the processor accepts. -/
def Canonical (a : VAddr) : Prop := a.toNat < 2 ^ 47 ∨ 2 ^ 64 - 2 ^ 47 ≤ a.toNat

instance (a : VAddr) : Decidable (Canonical a) := inferInstanceAs (Decidable (_ ∨ _))

/-- A byte that can be read. -/
def Directory.Readable (d : Directory) (a : VAddr) : Prop :=
  Canonical a ∧ d.isPageMapped a = some true

/-- All eight bytes of a word can be read. -/
def Directory.ReadableWord (d : Directory) (a : VAddr) : Prop :=
  ∀ i < 8, d.Readable (a + BitVec.ofNat 64 i)

/-- A trace that causes no exception. -/
def Trace.Safe (t : Trace) (d : Directory) : Prop := ∀ a ∈ t.reads, d.ReadableWord a

/-! ## Frames -/

section

variable {d : Directory} {mem : Memory} {f rbp : VAddr}

/-- The two bytes that are looked up are in pages that are there. -/
def Directory.Checked (d : Directory) (f : VAddr) : Prop :=
  d.isPageMapped f = some true ∧ d.isPageMapped (f + 8) = some true

/-- The frames that the chain goes through. -/
inductive Chain (d : Directory) (mem : Memory) (rbp : VAddr) : VAddr → Prop where
  | start : Chain d mem rbp rbp
  | next {f : VAddr} : Chain d mem rbp f → d.Checked f → word mem (f + 8) ≠ 0 →
      f < word mem f → Chain d mem rbp (word mem f)

/-- A frame that can be read when it has been looked up: its last byte is in a page that is
there too, and what is read of it is at addresses that the processor accepts. -/
structure FrameOk (d : Directory) (mem : Memory) (f : VAddr) : Prop where
  last : d.isPageMapped (f + 15) = some true
  second : Canonical (f + 8) ∧ Canonical (f + 15)
  /-- The first word is read when the second is not zero. -/
  first : word mem (f + 8) ≠ 0 → Canonical f ∧ Canonical (f + 7)

theorem isPageMapped_congr {v v' : VAddr} (h : v.toNat / 4096 = v'.toNat / 4096) :
    d.isPageMapped v = d.isPageMapped v' := by
  have hindex : ∀ level, index level v = index level v' := by
    intro level
    have hpow : 2 ^ (12 + 9 * level) = 4096 * 2 ^ (9 * level) := by rw [Nat.pow_add]
    unfold index
    rw [hpow, ← Nat.div_div_eq_div_mul, ← Nat.div_div_eq_div_mul, h]
  have hwalk : ∀ (n t : Nat), getEntry d.tables 0 n t v = getEntry d.tables 0 n t v' := by
    intro n
    induction n with
    | zero => intro t; rw [getEntry, getEntry, hindex]
    | succ n ih =>
      intro t
      rw [getEntry, hindex]
      refine congrArg _ (funext fun nd => ?_)
      dsimp only
      split
      · rfl
      · exact ih _
  unfold Directory.isPageMapped
  rw [hwalk]

theorem toNat_add_ofNat (a : VAddr) {i : Nat} (hi : i < 2 ^ 64) :
    (a + BitVec.ofNat 64 i).toNat = (a.toNat + i) % 2 ^ 64 := by
  rw [BitVec.toNat_add, BitVec.toNat_ofNat, Nat.mod_eq_of_lt hi]

/-- A word lies in the pages of its first and its last byte. -/
theorem readableWord_iff {a : VAddr} : d.ReadableWord a ↔
    d.Readable a ∧ d.Readable (a + 7) := by
  constructor
  · intro h
    have h0 := h 0 (by decide)
    rw [show a + BitVec.ofNat 64 0 = a by simp] at h0
    exact ⟨h0, h 7 (by decide)⟩
  · intro ⟨⟨hc0, hm0⟩, ⟨hc7, hm7⟩⟩ i hi
    have h7 : (a + 7).toNat = (a.toNat + 7) % 2 ^ 64 := toNat_add_ofNat a (by decide)
    have hi' := toNat_add_ofNat a (i := i) (by omega)
    constructor
    · unfold Canonical at hc0 hc7 ⊢
      omega
    · have hpage : (a + BitVec.ofNat 64 i).toNat / 4096 = a.toNat / 4096 ∨
          (a + BitVec.ofNat 64 i).toNat / 4096 = (a + 7).toNat / 4096 := by omega
      rcases hpage with h | h
      · rw [isPageMapped_congr h, hm0]
      · rw [isPageMapped_congr h, hm7]

/-- The first word ends before the second, and so in a page that has been looked up. -/
theorem Directory.Checked.first_iff (h : d.Checked f) :
    d.ReadableWord f ↔ Canonical f ∧ Canonical (f + 7) := by
  have hlast : d.isPageMapped (f + 7) = some true := by
    have h7 : (f + 7).toNat = (f.toNat + 7) % 2 ^ 64 := toNat_add_ofNat f (by decide)
    have h8 : (f + 8).toNat = (f.toNat + 8) % 2 ^ 64 := toNat_add_ofNat f (by decide)
    have hpage : (f + 7).toNat / 4096 = f.toNat / 4096 ∨
        (f + 7).toNat / 4096 = (f + 8).toNat / 4096 := by omega
    rcases hpage with hp | hp
    · rw [isPageMapped_congr hp, h.1]
    · rw [isPageMapped_congr hp, h.2]
  rw [readableWord_iff]
  exact ⟨fun ⟨h0, h7⟩ => ⟨h0.1, h7.1⟩, fun ⟨h0, h7⟩ => ⟨⟨h0, h.1⟩, ⟨h7, hlast⟩⟩⟩

theorem Directory.Checked.second_iff (h : d.Checked f) : d.ReadableWord (f + 8) ↔
    d.isPageMapped (f + 15) = some true ∧ Canonical (f + 8) ∧ Canonical (f + 15) := by
  rw [readableWord_iff, BitVec.add_assoc]
  exact ⟨fun ⟨h8, h15⟩ => ⟨h15.2, h8.1, h15.1⟩, fun ⟨hm, h8, h15⟩ => ⟨⟨h8, h.2⟩, ⟨h15, hm⟩⟩⟩

/-- A frame, and then the chain from the next one on. -/
theorem chain_iff {g : VAddr} : Chain d mem f g ↔ g = f ∨
    (d.Checked f ∧ word mem (f + 8) ≠ 0 ∧ f < word mem f) ∧ Chain d mem (word mem f) g := by
  constructor
  · intro h
    induction h with
    | start => exact .inl rfl
    | next _ hc hr hup ih =>
      rcases ih with rfl | ⟨hf, ih⟩
      · exact .inr ⟨⟨hc, hr, hup⟩, .start⟩
      · exact .inr ⟨hf, ih.next hc hr hup⟩
  · rintro (rfl | ⟨⟨hc, hr, hup⟩, h⟩)
    · exact .start
    · induction h with
      | start => exact Chain.start.next hc hr hup
      | next _ hc' hr' hup' ih => exact ih.next hc' hr' hup'

/-- All frames of the chain that are read can be. -/
def ChainOk (d : Directory) (mem : Memory) (rbp : VAddr) : Prop :=
  ∀ f, Chain d mem rbp f → d.Checked f → FrameOk d mem f

theorem chainOk_of_not_checked (h : ¬ d.Checked f) : ChainOk d mem f := by
  intro g hg hc
  rcases chain_iff.mp hg with rfl | ⟨⟨hf, -⟩, -⟩
  · exact absurd hc h
  · exact absurd hf h

theorem chainOk_of_last (h : d.Checked f)
    (hlast : ¬ (word mem (f + 8) ≠ 0 ∧ f < word mem f)) :
    ChainOk d mem f ↔ FrameOk d mem f := by
  refine ⟨fun hok => hok f .start h, fun hok g hg _ => ?_⟩
  rcases chain_iff.mp hg with rfl | ⟨⟨-, hnext⟩, -⟩
  · exact hok
  · exact absurd hnext hlast

theorem chainOk_of_next (h : d.Checked f) (hr : word mem (f + 8) ≠ 0) (hup : f < word mem f) :
    ChainOk d mem f ↔ FrameOk d mem f ∧ ChainOk d mem (word mem f) := by
  constructor
  · intro hok
    exact ⟨hok f .start h, fun g hg => hok g (chain_iff.mpr (.inr ⟨⟨h, hr, hup⟩, hg⟩))⟩
  · intro ⟨hok, hrest⟩ g hg hc
    rcases chain_iff.mp hg with rfl | ⟨-, hg⟩
    · exact hok
    · exact hrest g hg hc

/-! ## The loop -/

theorem frameOk_iff_both (h : d.Checked f) (hr : word mem (f + 8) ≠ 0) :
    FrameOk d mem f ↔ d.ReadableWord (f + 8) ∧ d.ReadableWord f := by
  rw [h.first_iff, h.second_iff]
  exact ⟨fun hok => ⟨⟨hok.last, hok.second⟩, hok.first hr⟩,
    fun ⟨⟨hl, hs⟩, hf⟩ => ⟨hl, hs, fun _ => hf⟩⟩

theorem frameOk_iff_second (h : d.Checked f) (hr : word mem (f + 8) = 0) :
    FrameOk d mem f ↔ d.ReadableWord (f + 8) := by
  rw [h.second_iff]
  exact ⟨fun hok => ⟨hok.last, hok.second⟩, fun ⟨hl, hs⟩ => ⟨hl, hs, fun h => absurd hr h⟩⟩

theorem printLoop_of_not_checked (hd : ∀ v, (d.isPageMapped v).isSome) (h : ¬ d.Checked f)
    (fuel : Nat) : printLoop d mem (fuel + 1) f = some ⟨[.invalidPointer f], []⟩ := by
  obtain ⟨first, hfirst⟩ := isSome_iff_exists.mp (hd f)
  obtain ⟨second, hsecond⟩ := isSome_iff_exists.mp (hd (f + 8))
  rw [printLoop, hfirst]
  cases first with
  | false => rfl
  | true =>
    cases second with
    | false =>
      simp only [bind_eq_bind, bind_some, if_true, hsecond, Bool.false_eq_true,
        not_false_eq_true]
    | true => exact absurd ⟨hfirst, hsecond⟩ h

theorem printLoop_of_checked (h : d.Checked f) (fuel : Nat) : printLoop d mem (fuel + 1) f
    = if word mem (f + 8) = 0 then some ⟨[], [f + 8]⟩
      else if f ≥ word mem f then some ⟨[.address (word mem (f + 8)), .backward], [f + 8, f]⟩
      else (printLoop d mem fuel (word mem f)).bind fun t =>
        some ⟨.address (word mem (f + 8)) :: t.lines, (f + 8) :: f :: t.reads⟩ := by
  rw [printLoop, h.1]
  simp only [bind_eq_bind, bind_some, if_true, h.2, not_true_eq_false, if_false]

/-- The frames go up, so that there is an end; and what is read is what the chain goes through. -/
theorem printLoop_spec (hd : ∀ v, (d.isPageMapped v).isSome) : ∀ {fuel : Nat} {f : VAddr},
    2 ^ 64 - f.toNat ≤ fuel → ∃ t, printLoop d mem fuel f = some t ∧ (t.Safe d ↔ ChainOk d mem f)
  | 0, f, hfuel => by
    have hlt := f.isLt
    omega
  | fuel + 1, f, hfuel => by
    by_cases hc : d.Checked f
    · rw [printLoop_of_checked hc]
      by_cases hr : word mem (f + 8) = 0
      · refine ⟨_, if_pos hr, ?_⟩
        rw [chainOk_of_last hc fun h => h.1 hr, frameOk_iff_second hc hr]
        exact List.forall_mem_singleton
      rw [if_neg hr]
      by_cases hup : f ≥ word mem f
      · refine ⟨_, if_pos hup, ?_⟩
        rw [chainOk_of_last hc fun h => BitVec.not_lt.mpr hup h.2, frameOk_iff_both hc hr]
        simp [Trace.Safe]
      · rw [if_neg hup]
        have hlt : f < word mem f := BitVec.not_le.mp hup
        have hnext : 2 ^ 64 - (word mem f).toNat ≤ fuel := by
          rw [BitVec.lt_def] at hlt
          omega
        obtain ⟨t, ht, hsafe⟩ := printLoop_spec hd hnext
        refine ⟨_, by rw [ht]; rfl, ?_⟩
        rw [chainOk_of_next hc hr hlt, frameOk_iff_both hc hr, ← hsafe]
        simp [Trace.Safe, and_assoc]
    · refine ⟨_, printLoop_of_not_checked hd hc fuel, ?_⟩
      exact iff_of_true (fun a ha => absurd ha not_mem_nil) (chainOk_of_not_checked hc)

end

/-- **When a stack trace causes no exception**, for any frame pointer, memory and directory. It
always comes to an end. -/
theorem printStackTrace_safe_iff {d : Directory} (hd : ∀ v, (d.isPageMapped v).isSome)
    (mem : Memory) (rbp : VAddr) : ∃ t, printStackTrace d mem rbp = some t ∧
      (t.Safe d ↔ ∀ f, Chain d mem rbp f → d.Checked f → FrameOk d mem f) :=
  printLoop_spec hd (Nat.sub_le _ _)

/-- In a directory of the kernel every address can be looked up, and what is found is its entry. -/
theorem isPageMapped_of_sound {w : World} {R : Nat → Prop} {S r : Nat} (h : Sound w R S) (hr : R r)
    (v : VAddr) : Directory.isPageMapped ⟨w.tables, r⟩ v = some (pte w r v).p := by
  rw [Directory.isPageMapped, h.getPage_eq hr]
  cases hf : follow w.tables r (path v) with
  | none =>
    rw [pte_of_none hf]
    rfl
  | some t =>
    obtain ⟨n, hn, he⟩ := map_eq_some_iff.mp (h.entry_eq hr hf)
    show (w.tables t).map _ = _
    rw [hn, ← he]
    rfl

/-- The same for the directories of the kernel. -/
theorem printStackTrace_of_sound {w : World} {R : Nat → Prop} {S r : Nat} (h : Sound w R S)
    (hr : R r) (mem : Memory) (rbp : VAddr) :
    ∃ t, printStackTrace ⟨w.tables, r⟩ mem rbp = some t ∧ (t.Safe ⟨w.tables, r⟩ ↔
      ∀ f, Chain ⟨w.tables, r⟩ mem rbp f → Directory.Checked ⟨w.tables, r⟩ f →
        FrameOk ⟨w.tables, r⟩ mem f) := by
  refine printLoop_spec (fun v => ?_) (Nat.sub_le _ _)
  rw [isPageMapped_of_sound h hr]
  rfl

/-! ## One page -/

/-- A directory with the page at `0x1000` only. -/
def onePage : Directory where
  tables t :=
    if t < 3 then
      some ⟨fun i => { Entry.zero with p := i = 0 }, fun i => if i = 0 then some (t + 1) else none⟩
    else some ⟨fun i => { Entry.zero with p := i = 1 }, fun _ => none⟩
  root := 0

/-- Whether an address is in this page, as the lookup sees it. -/
def inOnePage (v : VAddr) : Bool :=
  index 3 v = 0 ∧ index 2 v = 0 ∧ index 1 v = 0 ∧ index 0 v = 1

theorem onePage_isPageMapped (v : VAddr) : onePage.isPageMapped v = some (inOnePage v) := by
  unfold Directory.isPageMapped inOnePage
  by_cases h3 : index 3 v = 0
  · by_cases h2 : index 2 v = 0
    · by_cases h1 : index 1 v = 0
      · simp [getEntry, onePage, h3, h2, h1]
      · simp [getEntry, onePage, h3, h2, h1, Flix.assert]
    · simp [getEntry, onePage, h3, h2, Flix.assert]
  · simp [getEntry, onePage, h3, Flix.assert]

theorem onePage_total (v : VAddr) : (onePage.isPageMapped v).isSome := by
  rw [onePage_isPageMapped]
  rfl

/-- A frame in the middle of the page, with nothing above it. -/
theorem printStackTrace_safe_iff_middle : ∃ t,
    printStackTrace onePage (fun _ => 0) 0x1800 = some t ∧ t.Safe onePage := by
  obtain ⟨t, ht, hsafe⟩ := printStackTrace_safe_iff onePage_total (fun _ => 0) 0x1800
  refine ⟨t, ht, hsafe.mpr fun f hf hc => ?_⟩
  rcases chain_iff.mp hf with rfl | ⟨⟨-, hr, -⟩, -⟩
  · refine ⟨?_, by decide, fun hr => absurd rfl hr⟩
    rw [onePage_isPageMapped]
    decide
  · exact absurd rfl hr

/-- The second word of the frame at `0x1ff4` begins in the page and ends behind it. -/
theorem second_word_unmapped : ∃ t,
    printStackTrace onePage (fun _ => 0) 0x1ff4 = some t ∧ ¬ t.Safe onePage := by
  have hc : onePage.Checked 0x1ff4 := by
    constructor
    · rw [onePage_isPageMapped]
      decide
    · rw [onePage_isPageMapped]
      decide
  refine ⟨⟨[], [0x1ff4 + 8]⟩, printLoop_of_checked hc _, fun hsafe => ?_⟩
  have hlast := (hc.second_iff.mp (hsafe _ mem_cons_self)).1
  rw [onePage_isPageMapped] at hlast
  exact absurd hlast (by decide)

end Flix.StackTrace

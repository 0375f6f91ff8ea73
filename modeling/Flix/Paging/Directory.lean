import Flix.Paging.Ops

/-!
# A directory is a map

What a directory is for: it maps pages. A page is unmapped, or mapped to a physical
address, or its frame is still to be chosen. This module takes that as the abstract
state, says what each operation does to the page it is called for, and shows that
the directory does the same and answers accordingly, over every run.

The pages of the page heap's own blocks are the exception. They come and go in the
kernel's part of every directory as tables are needed, by no operation on them.
-/

namespace Flix.Paging.Directory

open Runs

/-! ## Operations -/

inductive Op where
  | mapPageTo (v : VAddr) (paddr attr : Nat)
  | mapPage (v : VAddr) (attr : Nat)
  | unmapPage (v : VAddr)
  | handleFault (v : VAddr)

def Op.addr : Op → VAddr
  | .mapPageTo v _ _ => v
  | .mapPage v _ => v
  | .unmapPage v => v
  | .handleFault v => v

inductive Answer where
  | done
  | phys (a : Nat)
  | handled (b : Bool)
  deriving DecidableEq

def act (r : Nat) (w : World) : Op → Option (World × Answer)
  | .mapPageTo v paddr attr => (mapPageTo w r v paddr attr).map fun w => (w, .done)
  | .mapPage v attr => (mapPage w r v attr).map fun x => (x.1, .phys x.2)
  | .unmapPage v => (unmapPage w r v).map fun x => (x.1, .phys x.2)
  | .handleFault v => (handleFault w r v).map fun x => (x.1, .handled x.2)

/-- The frame that `Memory::getFreePage` gives next. -/
def freeFrame (w : World) : Nat := ((getFreePage w.frames).map Prod.snd).getD 0

/-- What happened: the operation, the frame that was next, and the answer. -/
structure Event where
  op : Op
  frame : Nat
  answer : Answer

abbrev State := World × List Event

def step (r : Nat) (s : State) (op : Op) : Option State :=
  (act r s.1 op).map fun x => (x.1, s.2 ++ [⟨op, freeFrame s.1, x.2⟩])

/-! ## The map -/

inductive PageState where
  | unmapped
  | deferred
  | mapped (paddr : Nat)
  deriving DecidableEq

/-- What `resolve` makes of it. -/
def PageState.phys : PageState → Nat
  | .mapped a => a
  | _ => INVALID_PHYS

/-- Rounded down to a page and cut to 52 bits. -/
def cut (paddr : Nat) : Nat := paddr / PAGE_SIZE * PAGE_SIZE % 2 ^ 52

/-- What the operation makes of its page. -/
def Op.next (frame : Nat) (s : PageState) : Op → PageState
  | .mapPageTo _ paddr attr =>
    if attr.testBit 3 then
      -- without the marker for it, the page cannot be given a frame later
      if cut paddr = INVALID_PHYS then .deferred else .unmapped
    else .mapped (cut paddr)
  | .mapPage _ attr => if attr.testBit 3 then .deferred else .mapped (cut (frame * PAGE_SIZE))
  | .unmapPage _ => .unmapped
  | .handleFault _ => if s = .deferred then .mapped (cut (frame * PAGE_SIZE)) else s

/-- What it answers. -/
def Op.Answers (frame : Nat) (s : PageState) (answer : Answer) : Op → Prop
  | .mapPageTo _ _ _ => answer = .done
  | .mapPage _ attr =>
    answer = .phys (if attr.testBit 3 then INVALID_PHYS else frame * PAGE_SIZE)
  | .unmapPage _ => ∃ a, s = .mapped a ∧ answer = .phys a
  | .handleFault _ => answer = .handled (decide (s = .deferred))

/-- What a page has become, by the operations on that page alone. -/
def history (page : Nat) (s : PageState) (log : List Event) : PageState :=
  log.foldl (fun s e => if pageOf e.op.addr = page then e.op.next e.frame s else s) s

theorem history_snoc (page : Nat) (s : PageState) (log : List Event) (e : Event) :
    history page s (log ++ [e]) =
      if pageOf e.op.addr = page then e.op.next e.frame (history page s log)
      else history page s log := by
  rw [history, List.foldl_append]
  rfl

/-! ## Entries as pages -/

/-- What an entry says about its page. -/
def denote (e : Entry) : PageState :=
  if e.p then .mapped (e.base * PAGE_SIZE)
  else if e.base = INVALID_PAGE then .deferred else .unmapped

variable {w w' : World} {R : Nat → Prop} {S : Nat} {r : Nat}

variable {e : Entry} {paddr attr : Nat} {v : VAddr}

theorem denote_eq_deferred : denote e = .deferred ↔ Deferred e := by
  unfold denote Deferred
  cases e.p <;> simp

theorem resolve_eq_phys (h : Sound w R S) (hr : R r) (v : VAddr) :
    resolve w r v = some (denote (pte w r v)).phys := by
  rw [h.resolve_eq hr]
  rw [denote]
  by_cases hp : (pte w r v).p = true
  · rw [if_pos hp, if_pos hp]
    rfl
  · rw [if_neg hp, if_neg hp]
    split <;> rfl

theorem cut_eq (paddr : Nat) : paddr / PAGE_SIZE % 2 ^ 40 * PAGE_SIZE = cut paddr := by
  simp only [cut, PAGE_SIZE]
  omega

theorem cut_eq_invalid : cut paddr = INVALID_PHYS ↔ paddr / PAGE_SIZE % 2 ^ 40 = INVALID_PAGE := by
  rw [← cut_eq]
  simp only [INVALID_PHYS, PAGE_SIZE]
  omega

theorem denote_present (attr paddr : Nat) (e : Entry) :
    denote (setAttributes attr (e.present paddr)) =
      if attr.testBit 3 then (if cut paddr = INVALID_PHYS then .deferred else .unmapped)
      else .mapped (cut paddr) := by
  rw [← cut_eq]
  cases hb : attr.testBit 3 with
  | false => simp [denote, setAttributes, Entry.present, hb]
  | true =>
    have hiff : paddr / PAGE_SIZE % 2 ^ 40 * PAGE_SIZE = INVALID_PHYS ↔
        paddr / PAGE_SIZE % 2 ^ 40 = INVALID_PAGE := by
      rw [cut_eq, cut_eq_invalid]
    simp only [denote, setAttributes, Entry.present, hb, Bool.not_true, Bool.and_false, hiff,
      if_true, Bool.false_eq_true, if_false]

/-! ## One operation -/

/-- What an operation does, to its own page and to the others. -/
structure Refines (R : Nat → Prop) (S r : Nat) (op : Op) (w w' : World) (answer : Answer) :
    Prop where
  sound : Sound w' R S
  kernel : w'.kernel = w.kernel
  blocks : w.heap.map.length ≤ w'.heap.map.length
  /-- The other pages keep their entries. -/
  others : ∀ {r'} {v : VAddr}, R r' → ¬ HeapPage w' r' v → slotOf r' v ≠ slotOf r op.addr →
    pte w' r' v = pte w r' v
  page : ¬ HeapPage w' r op.addr →
    denote (pte w' r op.addr) = op.next (freeFrame w) (denote (pte w r op.addr))
  answers : ¬ HeapPage w' r op.addr →
    op.Answers (freeFrame w) (denote (pte w r op.addr)) answer
  /-- A fault that is not handled changes nothing. -/
  unhandled : answer = .handled false → w' = w

/-- A page mapped between two runs of the page heap. -/
theorem mapPageTo_page (h : Sound w R S) (hr : R r) (hm : mapPageTo w r v paddr attr = some w') :
    Sound w' R S ∧ w'.kernel = w.kernel ∧ w.heap.map.length ≤ w'.heap.map.length ∧
    (∀ {r'} {v' : VAddr}, R r' → ¬ HeapPage w' r' v' → slotOf r' v' ≠ slotOf r v →
      pte w' r' v' = pte w r' v') ∧ (¬ HeapPage w' r v → (pte w r v).p = false ∧
      pte w' r v = setAttributes attr ((pte w r v).present paddr)) := by
  obtain ⟨-, w1, w2, hgrown1, hp, hwrite, href, h', hext⟩ := mapPageTo_spec h hr hm
  have hgrown2 := href.grown
  -- a page that is not the heap's at the end never was
  have hlen1 := hgrown1.steps.length_le
  have hlen2 := hgrown2.steps.length_le
  have hk2 := hgrown2.steps.kernel_eq
  have hbefore : ∀ {r' v'}, ¬ HeapPage w' r' v' → ¬ HeapPage w1 r' v' := by
    intro r' v' hv hc
    refine hv (hc.mono (hk2.trans hwrite.kernel) ?_)
    rw [← hwrite.heap]
    exact hlen2
  refine ⟨h', hext.kernel, ?_, ?_, ?_⟩
  · rw [hwrite.heap] at hlen2
    exact hlen1.trans hlen2
  · intro r' v' hr' hv hs
    rw [hgrown2.steps.pte_eq hr' hv, hwrite.view v' hr', if_neg hs,
      hgrown1.steps.pte_eq hr' (hbefore hv)]
  · intro hv
    have hpte : pte w1 r v = pte w r v := hgrown1.steps.pte_eq hr (hbefore hv)
    rw [hgrown2.steps.pte_eq hr hv, hwrite.view v hr, if_pos rfl, ← hpte]
    exact ⟨hp, rfl⟩

theorem freeFrame_eq {frames : List Bool} {f : Nat}
    (h : getFreePage w.frames = some (frames, f)) : freeFrame w = f := by
  rw [freeFrame, h]
  rfl

/-- Every operation does to its page what the map does, answers what the map answers, and
leaves the other pages alone. -/
theorem act_refines (h : Sound w R S) (hr : R r) {op : Op} {answer : Answer}
    (ha : act r w op = some (w', answer)) : Refines R S r op w w' answer := by
  cases op with
  | mapPageTo v paddr attr =>
    obtain ⟨w1, hm, heq⟩ := map_eq_some_iff.mp ha
    cases heq
    obtain ⟨hsound, hk, hlen, hothers, hpage⟩ := mapPageTo_page h hr hm
    refine ⟨hsound, hk, hlen, hothers, ?_, fun _ => rfl, nofun⟩
    intro hv
    show denote (pte w' r v) = _
    rw [(hpage hv).2, denote_present]
    rfl
  | mapPage v attr =>
    obtain ⟨⟨w', a⟩, hm, heq⟩ := map_eq_some_iff.mp ha
    cases heq
    rcases mapPage_cases hm with ⟨hdefer, rfl, hto⟩ | ⟨hdefer, frames, f, hframe, -, rfl, hto⟩
    · obtain ⟨hsound, hk, hlen, hothers, hpage⟩ := mapPageTo_page h hr hto
      refine ⟨hsound, hk, hlen, hothers, ?_, ?_, nofun⟩
      · intro hv
        show denote (pte w' r v) = _
        rw [(hpage hv).2, denote_present, if_pos hdefer]
        show PageState.deferred = if attr.testBit 3 then _ else _
        rw [if_pos hdefer]
      · intro _
        show Answer.phys INVALID_PHYS = .phys (if attr.testBit 3 then _ else _)
        rw [if_pos hdefer]
    · obtain ⟨hsound, hk, hlen, hothers, hpage⟩ := mapPageTo_page (h.withFrames frames) hr hto
      have hb : ¬ attr.testBit 3 = true := by
        rw [hdefer]
        exact Bool.false_ne_true
      refine ⟨hsound, hk, hlen, hothers, ?_, ?_, nofun⟩
      · intro hv
        show denote (pte w' r v) = if attr.testBit 3 then _ else _
        rw [(hpage hv).2, denote_present, if_neg hb, if_neg hb, freeFrame_eq hframe]
      · intro _
        show Answer.phys (f * PAGE_SIZE) = .phys (if attr.testBit 3 then _ else _)
        rw [if_neg hb, freeFrame_eq hframe]
  | unmapPage v =>
    obtain ⟨⟨w', a⟩, hu, heq⟩ := map_eq_some_iff.mp ha
    cases heq
    obtain ⟨hp, rfl, hwrite, h', hext⟩ := unmapPage_spec h hr hu
    refine ⟨h', hwrite.kernel, by rw [hwrite.heap], ?_, ?_, ?_, nofun⟩
    · intro r' v' hr' _ hs
      exact (hwrite.view v' hr').trans (if_neg hs)
    · intro _
      show denote (pte w' r v) = .unmapped
      rw [hwrite.view v hr, if_pos rfl]
      rfl
    · intro _
      refine ⟨(pte w r v).base * PAGE_SIZE, ?_, rfl⟩
      show denote (pte w r v) = _
      rw [denote, if_pos hp]
  | handleFault v =>
    obtain ⟨⟨w', b⟩, hf, heq⟩ := map_eq_some_iff.mp ha
    cases heq
    rcases handleFault_spec h hr hf with
      ⟨rfl, rfl, hnot⟩ | ⟨rfl, hdef, frames, f, hframe, hwrite, h', hext⟩
    · have hne : denote (pte w' r v) ≠ .deferred := fun hc => hnot (denote_eq_deferred.mp hc)
      refine ⟨h, rfl, le_rfl, fun _ _ _ => rfl, ?_, ?_, fun _ => rfl⟩
      · intro _
        show denote (pte w' r v) = if denote (pte w' r v) = .deferred then _ else _
        rw [if_neg hne]
        rfl
      · intro _
        show Answer.handled false = .handled (decide (denote (pte w' r v) = .deferred))
        rw [decide_eq_false hne]
    · have hd := denote_eq_deferred.mpr hdef
      refine ⟨h', hwrite.kernel, by rw [hwrite.heap], ?_, ?_, ?_, nofun⟩
      · intro r' v' hr' _ hs
        exact (hwrite.view v' hr').trans (if_neg hs)
      · intro _
        show denote (pte w' r v) = if denote (pte w r v) = .deferred then _ else _
        rw [if_pos hd, hwrite.view v hr, if_pos rfl, freeFrame_eq hframe, ← cut_eq,
          Nat.mul_div_cancel _ (by decide : 0 < PAGE_SIZE)]
        rfl
      · intro _
        show Answer.handled true = .handled (decide (denote (pte w r v) = .deferred))
        rw [decide_eq_true hd]

/-! ## Runs -/

/-- The directory after a run is the map after the same operations. -/
structure Agrees (R : Nat → Prop) (S r : Nat) (w₀ : World) (s : State) : Prop where
  sound : Sound s.1 R S
  map : ∀ v, Canonical v → ¬ HeapPage s.1 r v →
    denote (pte s.1 r v) = history (pageOf v) (denote (pte w₀ r v)) s.2

theorem Agrees.step {w0 : World} {s s' : State} {op : Op} (h : Agrees R S r w0 s) (hr : R r)
    (hop : Canonical op.addr) (hs : step r s op = some s') : Agrees R S r w0 s' := by
  have hsound := h.sound
  obtain ⟨⟨w', answer⟩, ha, heq⟩ := map_eq_some_iff.mp hs
  cases heq
  have href := act_refines hsound hr ha
  refine ⟨href.sound, ?_⟩
  intro v hv hheap
  have hheap0 : ¬ HeapPage s.1 r v := fun hc => hheap (hc.mono href.kernel href.blocks)
  rw [history_snoc, ← h.map v hv hheap0]
  by_cases hpage : pageOf op.addr = pageOf v
  · -- the operation was for this page, perhaps by another address on it
    have hslot : slotOf r v = slotOf r op.addr := (hv.slotOf_eq_iff hop).mpr hpage.symm
    have hheap' : ¬ HeapPage w' r op.addr := by
      rintro ⟨b, n, hb, hn, hy, hs⟩
      exact hheap ⟨b, n, hb, hn, hy, hslot.trans hs⟩
    rw [if_pos hpage, href.sound.pte_of_slot hr hr hslot, href.page hheap',
      hsound.pte_of_slot hr hr hslot]
  · have hslot : slotOf r v ≠ slotOf r op.addr :=
      fun hc => hpage ((hv.slotOf_eq_iff hop).mp hc).symm
    rw [if_neg hpage, href.others hr hheap hslot]

/-- **A directory is a map.** After any run `resolve` says what the last operation on the page
made of it, for every page but the page heap's own, and the next operation answers what the map
answers and leaves the entries of all other pages as they are. -/
theorem directory_is_a_map {w₀ : World} (h₀ : Sound w₀ R S) (hr : R r) {s : State}
    (hreach : Reach (step r) (fun _ op => Canonical op.addr) (w₀, []) s) :
    (∀ v, Canonical v → ¬ HeapPage s.1 r v →
      resolve s.1 r v = some (history (pageOf v) (denote (pte w₀ r v)) s.2).phys) ∧
    ∀ op w' answer, Canonical op.addr → act r s.1 op = some (w', answer) →
      (¬ HeapPage w' r op.addr →
        op.Answers (freeFrame s.1) (history (pageOf op.addr) (denote (pte w₀ r op.addr)) s.2)
          answer) ∧
      (answer = .handled false → w' = s.1) ∧
      ∀ v, Canonical v → pageOf v ≠ pageOf op.addr → ¬ HeapPage w' r v →
        pte w' r v = pte s.1 r v := by
  have hagrees : Agrees R S r w₀ s := by
    refine hreach.invariant ⟨h₀, fun _ _ _ => rfl⟩ ?_
    intro s op s' hI hop hs
    exact hI.step hr hop hs
  have hsound := hagrees.sound
  refine ⟨?_, ?_⟩
  · intro v hv hheap
    rw [resolve_eq_phys hsound hr, hagrees.map v hv hheap]
  · intro op w' answer hop ha
    have href := act_refines hsound hr ha
    refine ⟨?_, href.unhandled, ?_⟩
    · intro hheap
      have hheap₀ : ¬ HeapPage s.1 r op.addr := fun hc => hheap (hc.mono href.kernel href.blocks)
      rw [← hagrees.map op.addr hop hheap₀]
      exact href.answers hheap
    · intro v hv hpage hheap
      exact href.others hr hheap fun hc => hpage ((hv.slotOf_eq_iff hop).mp hc)

/-- A page deferred and then faulted in. -/
theorem directory_is_a_map_smallKernel :
    ∃ s, guardedRun (step 0) (fun _ op => Canonical op.addr) (smallKernel, [])
        [.mapPage 0x400000 0xb, .handleFault 0x400abc] = some s ∧
      ∀ v, Canonical v → ¬ HeapPage s.1 0 v →
        resolve s.1 0 v = some (history (pageOf v) (denote (pte smallKernel 0 v)) s.2).phys := by
  have hsome : (guardedRun (step 0) (fun _ op => Canonical op.addr) (smallKernel, [])
      [.mapPage 0x400000 0xb, .handleFault 0x400abc]).isSome := by decide +kernel
  obtain ⟨s, hs⟩ := isSome_iff_exists.mp hsome
  exact ⟨s, hs, (directory_is_a_map smallKernel_sound rfl (Reach.of_guardedRun hs)).1⟩

/-- **The pages of the page heap are no part of the map**: mapping a page of a program needs three
tables, and a page in the kernel's part is mapped that no operation was called for. -/
theorem mapping_changes_heap_page :
    ∃ w', act 0 smallKernel (.mapPageTo 0x400000 0x1000 7) = some (w', .done) ∧
      pageOf 0xffffffffe0028000 ≠ pageOf 0x400000 ∧
      resolve smallKernel 0 0xffffffffe0028000 = some INVALID_PHYS ∧
      resolve w' 0 0xffffffffe0028000 = some 0 := by
  have hrun : (act 0 smallKernel (.mapPageTo 0x400000 0x1000 7)).bind
      (fun x => resolve x.1 0 0xffffffffe0028000) = some 0 := by decide +kernel
  obtain ⟨⟨w', answer⟩, ha, hres⟩ := bind_eq_some_iff.mp hrun
  obtain rfl : answer = .done := by
    rw [act] at ha
    obtain ⟨w₁, -, heq⟩ := map_eq_some_iff.mp ha
    exact (congrArg Prod.snd heq).symm
  exact ⟨w', ha, by decide, by decide +kernel, hres⟩

/-! ## Attributes -/

/-- The entry has no right but those that are asked for. -/
def Fits (attr : Nat) (e : Entry) : Prop :=
  (e.rw = true → attr.testBit 0 = true) ∧ (e.us = true → attr.testBit 1 = true) ∧
    (e.nx = true → attr.testBit 2 = true)

instance (attr : Nat) (e : Entry) : Decidable (Fits attr e) :=
  inferInstanceAs (Decidable (_ ∧ _ ∧ _))

theorem not_heapPage_of_lt (hv : Canonical v) (hlt : v.toNat < 0xffffffff00000000) :
    ¬ HeapPage w r v := by
  rintro ⟨b, n, -, -, hy, hs⟩
  have hcanonical : Canonical (heapPage b n) := .inr (by omega)
  have hpage := (hv.path_eq_iff hcanonical).mp (slotOf_eq_iff.mp hs).1
  simp only [pageOf, PAGE_SIZE] at hpage
  omega

theorem getAttributes_eq_iff (hattr : attr < 16) :
    e.getAttributes = attr ↔ e.rw = attr.testBit 0 ∧ e.us = attr.testBit 1 ∧
      e.nx = attr.testBit 2 ∧ (!e.p && e.base == INVALID_PAGE) = attr.testBit 3 := by
  rw [Entry.getAttributes]
  generalize e.rw = a, e.us = b, e.nx = c, (!e.p && e.base == INVALID_PAGE) = d
  revert attr a b c d
  decide

/-- The rights of an entry that is written are those it had before, too. -/
theorem getAttributes_present (hattr : attr < 16)
    (hdefer : attr.testBit 3 = true → paddr = INVALID_PHYS) :
    (setAttributes attr (e.present paddr)).getAttributes = attr ↔ Fits attr e := by
  rw [getAttributes_eq_iff hattr]
  have hmark : (!(true && !attr.testBit 3) && paddr / PAGE_SIZE % 2 ^ 40 == INVALID_PAGE)
      = attr.testBit 3 := by
    cases hb : attr.testBit 3 with
    | false => rfl
    | true =>
      rw [hdefer hb]
      rfl
  have hor : ∀ a b : Bool, (a || b) = b ↔ (a = true → b = true) := by decide
  constructor
  · rintro ⟨hrw, hus, hnx, -⟩
    exact ⟨(hor _ _).mp hrw, (hor _ _).mp hus, (hor _ _).mp hnx⟩
  · rintro ⟨hrw, hus, hnx⟩
    exact ⟨(hor _ _).mpr hrw, (hor _ _).mpr hus, (hor _ _).mpr hnx, hmark⟩

theorem getAttributes_faulted {f : Nat} (hattr : attr < 16) (he : e.getAttributes = attr) :
    ({ e with p := true, base := f } : Entry).getAttributes = attr % 8 := by
  obtain ⟨hrw, hus, hnx, -⟩ := (getAttributes_eq_iff hattr).mp he
  rw [Entry.getAttributes, hrw, hus, hnx]
  show _ + _ + _ + 0 = _
  clear he hrw hus hnx
  revert attr
  decide

/-- Nothing that is done for other pages changes the entry, unless it has become one of the page
heap's own. -/
theorem others_keep {w0 : World} (h0 : Sound w0 R S) (hr : R r) {s : State}
    (hreach : Reach (step r) (fun _ op => slotOf r op.addr ≠ slotOf r v) (w0, []) s) :
    Sound s.1 R S ∧ (¬ HeapPage s.1 r v → pte s.1 r v = pte w0 r v) := by
  refine hreach.invariant (I := fun s => Sound s.1 R S ∧
    (¬ HeapPage s.1 r v → pte s.1 r v = pte w0 r v)) ⟨h0, fun _ => rfl⟩ ?_
  rintro s op s' ⟨hsound, hpte⟩ hother hs
  obtain ⟨⟨w', answer⟩, ha, heq⟩ := map_eq_some_iff.mp hs
  cases heq
  have href := act_refines hsound hr ha
  refine ⟨href.sound, fun hv => ?_⟩
  have hv0 : ¬ HeapPage s.1 r v := fun hc => hv (hc.mono href.kernel href.blocks)
  exact (href.others hr hv hother.symm).trans (hpte hv0)

/-- The page has the attributes that were asked for; and when it was deferred and gets its frame
later, all of them but this, if no block of the page heap has come to lie there. -/
structure AsAsked (w : World) (r : Nat) (v : VAddr) (attr : Nat) : Prop where
  attributes : (pte w r v).getAttributes = attr
  faulted : ∀ {s w'}, Reach (step r) (fun _ op => slotOf r op.addr ≠ slotOf r v) (w, []) s →
    ¬ HeapPage s.1 r v → handleFault s.1 r v = some (w', true) →
      attr.testBit 3 = true ∧ (pte w' r v).getAttributes = attr % 8

/-- **A page has the attributes that were asked for, and those that were left.** After any run, a
page that is mapped, and is on none of the blocks that the page heap has by then, has the attributes
it was mapped with if and only if no other was left in its entry from before. -/
theorem attributes_as_asked {w₀ : World} (h₀ : Sound w₀ R S) (hr : R r) {s : State}
    (hreach : Reach (step r) (fun _ _ => True) (w₀, []) s) {v : VAddr} {paddr attr : Nat}
    (hdefer : attr.testBit 3 = true → paddr = INVALID_PHYS)
    (hm : mapPageTo s.1 r v paddr attr = some w') (hv : ¬ HeapPage w' r v) :
    AsAsked w' r v attr ↔ Fits attr (pte s.1 r v) := by
  have hsound : Sound s.1 R S := by
    refine hreach.invariant (I := fun s => Sound s.1 R S) h₀ ?_
    intro s op s' hI _ hs
    obtain ⟨⟨w', answer⟩, ha, heq⟩ := map_eq_some_iff.mp hs
    cases heq
    exact (act_refines hI hr ha).sound
  have hattr : attr < 16 := (mapPageTo_spec hsound hr hm).1.known
  obtain ⟨hsound', -, -, -, hpage⟩ := mapPageTo_page hsound hr hm
  obtain ⟨-, hpte⟩ := hpage hv
  have hiff : (pte w' r v).getAttributes = attr ↔ Fits attr (pte s.1 r v) := by
    rw [hpte]
    exact getAttributes_present hattr hdefer
  refine ⟨fun h => hiff.mp h.attributes, fun hfits => ⟨hiff.mpr hfits, ?_⟩⟩
  intro t w'' hothers hvt hfault
  obtain ⟨hsound'', hkeep⟩ := others_keep hsound' hr hothers
  have hwas : (pte t.1 r v).getAttributes = attr := by
    rw [hkeep hvt]
    exact hiff.mpr hfits
  rcases handleFault_spec hsound'' hr hfault with
    ⟨hc, -⟩ | ⟨-, ⟨hp, hbase⟩, frames, f, -, hwrite, -, -⟩
  · cases hc
  · refine ⟨?_, ?_⟩
    · rw [← ((getAttributes_eq_iff hattr).mp hwas).2.2.2, hp, hbase]
      rfl
    · have hview := hwrite.view v hr
      rw [if_pos rfl] at hview
      rw [hview]
      exact getAttributes_faulted hattr hwas

/-- A page that was mapped with the same rights before. -/
theorem attributes_as_asked_smallKernel :
    ∃ s w', Reach (step 0) (fun _ _ => True) (smallKernel, []) s ∧
      mapPageTo s.1 0 0x400000 INVALID_PHYS 0xb = some w' ∧ (pte s.1 0 0x400000).rw = true ∧
      AsAsked w' 0 0x400000 0xb := by
  have hrun : ((guardedRun (step 0) (fun _ _ => True) (smallKernel, [])
      [.mapPageTo 0x400000 0x1000 3, .unmapPage 0x400000]).map fun s =>
        ((pte s.1 0 0x400000), (mapPageTo s.1 0 0x400000 INVALID_PHYS 0xb).isSome))
      = some (⟨false, true, true, false, 0⟩, true) := by decide +kernel
  obtain ⟨s, hs, hfacts⟩ := map_eq_some_iff.mp hrun
  obtain ⟨hpte, hsome⟩ := Prod.mk.inj hfacts
  obtain ⟨w', hm⟩ := isSome_iff_exists.mp hsome
  have hreach := Reach.of_guardedRun hs
  refine ⟨s, w', hreach, hm, by rw [hpte], ?_⟩
  refine (attributes_as_asked smallKernel_sound rfl hreach (fun _ => rfl) hm
    (not_heapPage_of_lt (by decide) (by decide))).mpr ?_
  rw [hpte]
  decide

/-- **A page that was writable stays so**: it is unmapped and then mapped again, read-only. -/
theorem unmapped_page_keeps_rights :
    ∃ s w', Reach (step 0) (fun _ _ => True) (smallKernel, []) s ∧
      mapPageTo s.1 0 0x400000 0x2000 ATTR_PUBLIC = some w' ∧
      (pte w' 0 0x400000).getAttributes = ATTR_RW + ATTR_PUBLIC ∧
      ¬ AsAsked w' 0 0x400000 ATTR_PUBLIC := by
  have hrun : ((guardedRun (step 0) (fun _ _ => True) (smallKernel, [])
      [.mapPageTo 0x400000 0x1000 3, .unmapPage 0x400000]).bind fun s =>
        (mapPageTo s.1 0 0x400000 0x2000 ATTR_PUBLIC).map fun w' =>
          (pte w' 0 0x400000).getAttributes) = some (ATTR_RW + ATTR_PUBLIC) := by decide +kernel
  obtain ⟨s, hs, hrun⟩ := bind_eq_some_iff.mp hrun
  obtain ⟨w', hm, hattr⟩ := map_eq_some_iff.mp hrun
  refine ⟨s, w', Reach.of_guardedRun hs, hm, hattr, fun hc => ?_⟩
  have hasked := hc.attributes
  rw [hattr] at hasked
  exact absurd hasked (by decide)

end Flix.Paging.Directory

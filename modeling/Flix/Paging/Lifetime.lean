import Flix.Paging.Releases

/-!
# From the first table to the last

A directory is made with two tables and gets more as pages are mapped. When it is taken
down, everything that was made for it should go: the frames of its pages, and the blocks of
its tables.

`~PageManager` skips slot 511 of every table of level 2, and not only of the one where it
leads to the tables that all share. Where an address has this index the tables below it stay.
The pages of the upper half are not given back either.
-/

namespace Flix.Paging

open Function Radix Traced

variable {w w₁ w' : World} {R : Nat → Prop} {S d : Nat}

/-! ## The heap stays in order -/

/-- From a state in order to a state in order: no call is under way, the blocks are mapped, and
no block has got lost. -/
def Tidy (R : Nat → Prop) (w w' : World) : Prop :=
  w.heap.allocating = false → Backed w →
    w'.heap.allocating = false ∧ Backed w' ∧ ∀ {b}, Stray R w' b → Stray R w b

theorem Tidy.refl (w : World) : Tidy R w w := fun hidle hback => ⟨hidle, hback, id⟩

theorem Tidy.trans {a b c : World} (h : Tidy R a b) (h' : Tidy R b c) : Tidy R a c := by
  intro hidle hback
  obtain ⟨hidle1, hback1, hstray1⟩ := h hidle hback
  obtain ⟨hidle2, hback2, hstray2⟩ := h' hidle1 hback1
  exact ⟨hidle2, hback2, fun hb => hstray1 (hstray2 hb)⟩

/-- Entries are what a block depends on. -/
theorem Backed.congr (h : Backed w) (hmap : w'.heap.map = w.heap.map)
    (hp : ∀ {v}, (pte w w.kernel.root v).p = true → (pte w' w'.kernel.root v).p = true) :
    Backed w' := by
  refine ⟨by rw [hmap]; exact h.room, fun hb hn hused => hp (h.page hb hn ?_)⟩
  rw [← hmap]
  exact hused

section Creation

variable {r t i u phys : Nat} {q : List Nat} {n : Node Entry} (h : Sound w R S) (hr : R r)
  (hq : follow w.tables r q = some t) (hP : q ++ [i] ≠ region u)
  (hn : w.tables t = some n) (hi : n.next i = none) (ha : allocBlock w = some (w₁, u, phys))
include h hr hq hP hn hi ha

/-- The slot for a new table is still empty when there is a block for it. -/
theorem creation_slot (hidle : w.heap.allocating = false) (hback : Backed w) :
    Took R S w w₁ u phys ∧ follow w₁.tables r q = some t ∧
      ∃ n1, w₁.tables t = some n1 ∧ n1.next i = none := by
  obtain ⟨-, ht⟩ := allocBlock_took h hidle (allocBlock_room hidle hback.room ha) ha
  exact ⟨ht, ht.alloc.ext.follow_eq hq, ht.next_none h hr hq hP hn hi⟩

/-- A table that is not on the way to its own block leaves the heap in order. -/
theorem creation_tidy (hlen : q.length < 3) (e : Entry) : Tidy R w (w₁.link t i u e) := by
  intro hidle hback
  obtain ⟨ht, hq1, n1, hn1, hi1⟩ := creation_slot h hr hq hP hn hi ha hidle hback
  have hu := ht.alloc.block
  have hext1 := (Extends.refl w₁).create (e := e) ht.alloc.sound hu hr hq1 hn1 hi1
  refine ⟨ht.alloc.grown.allocating.trans hidle, ?_, fun {b} hb => ?_⟩
  · refine (ht.alloc.backed hback).congr rfl fun hp => ?_
    have hview := pte_link (e := e) ht.alloc.sound hu hr hq1 hn1 hi1 hlen ht.alloc.sound.kernel
    exact (congrArg Entry.p (hview _)).trans hp
  · have hold : Stray R w₁ b :=
      ⟨hb.used, hb.noPool, fun hr' hq' => hb.unreached hr' (hext1.follow_eq hq')⟩
    rcases ht.alloc.stray hold with hb' | rfl
    · exact hb'
    · -- the new table is in use
      obtain ⟨n', hn', hnu⟩ := link_next hu hn1
      exact absurd ((follow_snoc (hext1.follow_eq hq1) hn').trans hnu) (hb.unreached hr)

end Creation

/-- The same, as long as the heap has at most `N` blocks. -/
def TidyTo (N : Nat) (R : Nat → Prop) (w w' : World) : Prop :=
  w.heap.map.length ≤ w'.heap.map.length ∧ (w'.heap.map.length ≤ N → Tidy R w w')

theorem TidyTo.trans {a b c : World} {N : Nat} (h : TidyTo N R a b) (h' : TidyTo N R b c) :
    TidyTo N R a c :=
  ⟨h.1.trans h'.1, fun hN => (h.2 (h'.1.trans hN)).trans (h'.2 hN)⟩

/-- A walk that keeps away from the heap's own pages leaves the heap in order. -/
theorem tidy_creates {N : Nat} (init : Entry → Entry) :
    Creates R S allocBlock init (fun _ p => ∀ b < N, p ≠ region b) (TidyTo N R) := by
  intro w r t i q n w₁ u phys e h hr hq hlen hP hn hi ha
  obtain ⟨hs, hext, hnext, hgrown⟩ := allocBlock_creates init e h hr hq hlen trivial hn hi ha
  refine ⟨hs, hext, hnext, hgrown.steps.length_le, fun hN hidle hback => ?_⟩
  have hlength := (allocBlock_took h hidle (allocBlock_room hidle hback.room ha) ha).2.length
  have hN' : w₁.heap.map.length ≤ N := hN
  exact creation_tidy h hr hq (hP u (by omega)) hn hi ha hlen _ hidle hback

/-- A page is mapped, or one that was not. -/
theorem Writes.tidy {r : Nat} {v : VAddr} {e : Entry} (hwrite : Writes R w w' r v e)
    (h : Sound w R S) (hr : R r) (hv : e.p = true ∨ (pte w r v).p = false) : Tidy R w w' := by
  intro hidle hback
  refine ⟨by rw [hwrite.heap]; exact hidle, hback.congr (by rw [hwrite.heap]) ?_, fun hb => ?_⟩
  · intro y hpage
    rw [hwrite.kernel, hwrite.view _ h.kernel]
    split
    · rename_i hs
      refine hv.resolve_right fun hp => ?_
      rw [h.pte_of_slot h.kernel hr hs, hp] at hpage
      cases hpage
    · exact hpage
  · exact ⟨hwrite.heap ▸ hb.used, hwrite.heap ▸ hb.noPool,
      fun hr hq => hb.unreached hr (hwrite.follow_eq.trans hq)⟩

theorem Refilled.tidy (h : Refilled R S w w') : Tidy R w w' := fun hidle hback =>
  ⟨h.grown.allocating.trans hidle, h.backed hback, h.stray⟩

theorem tidy_withFrames (w : World) (frames : List Bool) : Tidy R w { w with frames := frames } :=
  fun hidle hback => ⟨hidle, ⟨hback.room, hback.page⟩, fun hb => { hb with }⟩

section Calls

variable {r attr : Nat} {v : VAddr} (h : Sound w R S) (hr : R r)
include h hr

theorem mapPageTo_tidy {paddr : Nat} (hm : mapPageTo w r v paddr attr = some w')
    (hv : Mappable w w' r v) : Tidy R w w' := by
  rcases hv with hv | hv
  · obtain ⟨t, hf, hp, hrefill⟩ := mapPageTo_covered h hr hv hm
    obtain ⟨hwrite, h2, -⟩ := h.writes hr hf (setAttributes attr ((pte w r v).present paddr))
    exact (hwrite.tidy h hr (.inr hp)).trans (refillPool_spec h2 hrefill).tidy
  · obtain ⟨-, w₁, t, w₂, h1, -, htidy, -, hp, -, hwrite, h2, -, hrefill⟩ :=
      mapPageTo_writes (P := fun _ p => ∀ b < w'.heap.map.length, p ≠ region b)
        (Q := TidyTo w'.heap.map.length R) (fun w => ⟨le_rfl, fun _ => .refl w⟩) TidyTo.trans
        (tidy_creates _) h hr (fun hp => hv.not_prefix hp) hm
    have href := refillPool_spec h2 hrefill
    have hlen : w₁.heap.map.length ≤ w'.heap.map.length := by
      rw [← hwrite.heap]
      exact href.grown.steps.length_le
    exact ((htidy.2 hlen).trans (hwrite.tidy h1 hr (.inr hp))).trans href.tidy

theorem mapPage_tidy {a : Nat} (hm : mapPage w r v attr = some (w', a))
    (hv : Mappable w w' r v) : Tidy R w w' := by
  rcases mapPage_cases hm with ⟨-, -, hto⟩ | ⟨-, frames, f, -, -, -, hto⟩
  · exact mapPageTo_tidy h hr hto hv
  · exact (tidy_withFrames w frames).trans (mapPageTo_tidy (h.withFrames frames) hr hto hv)

theorem handleFault_tidy {b : Bool} (hf : handleFault w r v = some (w', b)) : Tidy R w w' := by
  rcases handleFault_spec h hr hf with ⟨-, rfl, -⟩ | ⟨-, -, frames, f, -, hwrite, -, -⟩
  · exact .refl w'
  · exact (tidy_withFrames w frames).trans (hwrite.tidy (h.withFrames frames) hr (.inl rfl))

end Calls

/-! ## The frames of a process -/

namespace Lifetime

open Runs

/-- The world, with the pages of the directory and the frames that were taken for them. -/
structure State where
  world : World
  taken : List (VAddr × Nat)

inductive Act where
  /-- Also `mapRange`, and `mmap` with deferred pages. -/
  | mapPage (r : Nat) (v : VAddr) (attr : Nat)
  | handleFault (r : Nat) (v : VAddr)

/-- A page of `d` has got a frame. -/
def State.take (d : Nat) (s : State) (w : World) (r : Nat) (v : VAddr) (f : Nat) : State :=
  ⟨w, if r = d then (v, f) :: s.taken else s.taken⟩

def step (d : Nat) (s : State) : Act → Option State
  | .mapPage r v attr => do
      let (w, phys) ← Paging.mapPage s.world r v attr
      some (if attr.testBit 3 then { s with world := w } else s.take d w r v (phys / PAGE_SIZE))
  | .handleFault r v => do
      let (w, handled) ← Paging.handleFault s.world r v
      let (_, page) ← getFreePage s.world.frames
      some (if handled then s.take d w r v page else { s with world := w })

/-- Directories in use are asked, and for pages that have their table already or are away from the
blocks that the page heap has after the call. -/
def Guard (R : Nat → Prop) (d : Nat) (s : State) : Act → Prop
  | .mapPage r v attr => (R r ∨ r = d) ∧
      ∀ x, Paging.mapPage s.world r v attr = some x → Mappable s.world x.1 r v
  | .handleFault r _ => R r ∨ r = d

/-- What was taken for a page is there. -/
structure Inv (R : Nat → Prop) (S d : Nat) (s : State) : Prop where
  sound : Sound s.world (fun r => R r ∨ r = d) S
  owned : Owned (fun r => R r ∨ r = d) s.world
  apart : d ≠ s.world.kernel.root
  idle : s.world.heap.allocating = false
  backed : Backed s.world
  taken : ∀ {x}, x ∈ s.taken → ¬ Shared x.1 → (pte s.world d x.1).p = true ∧
    (pte s.world d x.1).base = x.2 % 2 ^ 40 ∧ Used s.world.frames x.2

variable {s s' : State}

section Steps

variable (h : Inv R S d s) {w : World} {r : Nat} {v : VAddr} {e : Entry}
  (hst : Steady (fun r => R r ∨ r = d) S s.world w) (ho : Owned (fun r => R r ∨ r = d) w)
  (htidy : Tidy (fun r => R r ∨ r = d) s.world w)
  (hwas : ¬ Shared v → (pte s.world r v).p = false)
  (hview : ∀ {r'} (v' : VAddr), (R r' ∨ r' = d) → ¬ Shared v' →
    pte w r' v' = if slotOf r' v' = slotOf r v then e else pte s.world r' v')
include h hst ho htidy hwas hview

theorem Inv.written : Inv R S d { s with world := w } := by
  obtain ⟨hidle, hback, -⟩ := htidy h.idle h.backed
  refine ⟨hst.sound, ho, ?_, hidle, hback, fun {x} hx hs => ?_⟩
  · rw [hst.ext.kernel]
    exact h.apart
  obtain ⟨hp, hbase, hused⟩ := h.taken hx hs
  have hne : slotOf d x.1 ≠ slotOf r v := by
    intro hslot
    have hv : ¬ Shared v := fun hc => slotOf_ne_of_shared hs hc hslot
    obtain ⟨⟨hpath, hindex⟩, hd | hc⟩ := slotOf_eq_iff.mp hslot
    · have hsame : pte s.world d x.1 = pte s.world r v := by rw [pte, pte, hpath, hindex, hd]
      rw [hsame, hwas hv] at hp
      cases hp
    · exact hs hc
  rw [hview _ (.inr rfl) hs, if_neg hne]
  exact ⟨hp, hbase, hst.used hused⟩

theorem Inv.take {f : Nat} (hp : ¬ Shared v → e.p = true ∧ e.base = f % 2 ^ 40)
    (hf : Used w.frames f) : Inv R S d (s.take d w r v f) := by
  have hwritten := h.written hst ho htidy hwas hview
  refine { hwritten with taken := fun {x} hx hs => ?_ }
  by_cases hrd : r = d
  · have hx : x ∈ (v, f) :: s.taken := by
      rw [State.take, if_pos hrd] at hx
      exact hx
    rcases mem_cons.mp hx with rfl | hx
    · show (pte w d v).p = true ∧ (pte w d v).base = _ ∧ Used w.frames f
      rw [hview _ (.inr rfl) hs, if_pos (by rw [hrd])]
      exact ⟨(hp hs).1, (hp hs).2, hf⟩
    · exact hwritten.taken hx hs
  · rw [State.take, if_neg hrd] at hx
    exact hwritten.taken hx hs

end Steps

/-- One call. -/
theorem Inv.step {a : Act} (h : Inv R S d s) (hg : Guard R d s a) (hs : step d s a = some s') :
    Inv R S d s' := by
  cases a with
  | mapPage r v attr =>
    obtain ⟨hr, hv⟩ := hg
    obtain ⟨⟨w, phys⟩, hm, hs⟩ := of_bind hs
    cases hs
    have hst := mapPage_steady h.sound hr hm
    have ho := h.owned.mapPage h.sound hr hm
    have htidy := mapPage_tidy h.sound hr hm (hv _ hm)
    obtain ⟨e, he, hview⟩ := mapPage_private h.sound hr hm
    have hwas : ¬ Shared v → (pte s.world r v).p = false := fun hc => (he hc).1
    split
    · exact h.written hst ho htidy hwas hview
    · rename_i hdefer
      rcases mapPage_cases hm with ⟨hd, -⟩ | ⟨-, frames, f, hfree, -, rfl, hto⟩
      · exact absurd hd hdefer
      rw [Nat.mul_div_cancel _ (by decide)]
      refine h.take hst ho htidy hwas hview (fun hc => ?_) ?_
      · rw [(he hc).2]
        refine ⟨?_, ?_⟩
        · show (true && !attr.testBit 3) = true
          rw [(Bool.not_eq_true _).mp hdefer]
          rfl
        · show f * PAGE_SIZE / PAGE_SIZE % 2 ^ 40 = _
          rw [Nat.mul_div_cancel _ (by decide)]
      · refine (mapPageTo_steady (h.sound.withFrames frames) hr hto).used ?_
        exact ((getFreePage_spec hfree).2 f).mpr (.inr rfl)
  | handleFault r v =>
    obtain ⟨⟨w, handled⟩, hm, hs⟩ := of_bind hs
    obtain ⟨⟨frames, f⟩, hfree, hs⟩ := of_bind hs
    cases hs
    have hst := handleFault_steady h.sound hg hm
    have ho := h.owned.handleFault h.sound hg hm
    have htidy := handleFault_tidy h.sound hg hm
    rcases handleFault_spec h.sound hg hm with ⟨rfl, rfl, -⟩ |
      ⟨rfl, hdefer, frames', f', hfree', hwrite, -, -⟩
    · exact h
    · rw [hfree] at hfree'
      cases hfree'
      refine h.take hst ho htidy (fun _ => hdefer.1) (fun v' hr' _ => hwrite.view v' hr')
        (fun _ => ⟨rfl, rfl⟩) ?_
      rw [hwrite.frames]
      exact ((getFreePage_spec hfree).2 f).mpr (.inr rfl)

theorem start_inv {w0 : World} {pd : PageDirectory} (h : Sound w0 R S) (ho : Owned R w0)
    (hidle : w0.heap.allocating = false) (hback : Backed w0)
    (hm : mapKernel w0 = some (w₁, pd)) : Inv R S pd.root ⟨w₁, []⟩ := by
  have hmap := mapKernel_spec h hm
  refine ⟨hmap.sound, ho.mapKernel h hmap, ?_, hmap.grown.allocating.trans hidle,
    hmap.backed hback, fun hx => absurd hx not_mem_nil⟩
  rw [hmap.ext.kernel]
  intro hc
  have hlive := h.rootLive h.kernel
  rw [← hc, hmap.new] at hlive
  cases hlive

section Unmap

variable {w₂ w₃ w₄ : World} {pd : PageDirectory} (h : Inv R S d s)
  (hm : mapKernel s.world = some (w₂, pd)) (hb : w₂.frames.length ≤ 2 ^ 40)
include h hm hb

/-- It comes to its end. -/
theorem Inv.unmapUserSpace : ∃ w₃ w₄,
    (unmapUserSpace s.world d : Traced Call (World × PageDirectory)).result = some (w₄, pd) ∧
    Freed d lowerPages w₂ w₃ ∧ (release w₃ d : Traced Call World).result = some w₄ ∧
    Down (Swapped (fun r => R r ∨ r = d) d pd) S w₃ (Own w₃.tables d) w₄ ∧
    Spends World.has Call.gives w₂
      (unmapUserSpace s.world d : Traced Call (World × PageDirectory)).calls w₄ := by
  have hmap := mapKernel_spec h.sound hm
  have hspec := unmapUserSpace_spec h.sound h.owned (.inr rfl) h.apart hm fun _ : True =>
    ⟨hb, hmap.backed h.backed⟩
  obtain ⟨⟨w₄, pd'⟩, hres⟩ := isSome_iff_exists.mp (hspec.total trivial)
  obtain ⟨rfl, w₃, hfreed, hrelease, hdown⟩ := hspec.post hres
  have hsound : Sound w₂ (fun r => (R r ∨ r = pd'.root) ∨ r = d) S := by
    refine hmap.sound.mono ?_ (or_right_comm.mp hmap.sound.kernel)
    exact or_right_comm.mp
  exact ⟨w₃, w₄, hres, hfreed, hrelease, hdown, unmapUserSpace_givesBack hm hsound _ hres⟩

variable {x : VAddr × Nat}

end Unmap

section SmallKernel

theorem private_away {N : Nat} {v : VAddr} (hv : ¬ Shared v) : Away N v := by
  intro b _ hpath
  simp only [path, region, List.cons.injEq] at hpath
  exact hv ⟨hpath.1, hpath.2.1⟩

theorem smallKernel_backed : Backed smallKernel := by
  refine ⟨by decide, fun {b n} _ hn hused => ?_⟩
  have hb : b < 20 := (List.getElem?_eq_some_iff.mp hused).1
  exact congrArg Entry.p (smallKernel_heapPage hb hn)

/-- A directory is made and gets a page, and then another is made. -/
def onePage (w₀ : World) (v : VAddr) (attr : Nat) : Option (PageDirectory × State × World) := do
  let (w₁, pd) ← mapKernel w₀
  let s ← step pd.root ⟨w₁, []⟩ (.mapPage pd.root v attr)
  let (w₂, _) ← mapKernel s.world
  some (pd, s, w₂)

theorem onePage_run {v : VAddr} (attr : Nat) (hv : ¬ Shared v)
    (hrun : (onePage smallKernel v attr).map (fun x => (x.1.root, x.2.1.taken, x.2.2.frames.length))
      = some (20, [(v, 4)], 64)) :
    ∃ pd s w₁ w₂ pd', pd.root = 20 ∧ s.taken = [(v, 4)] ∧ w₂.frames.length = 64 ∧
      mapKernel smallKernel = some (w₁, pd) ∧ Reach (step pd.root) (Guard R pd.root) ⟨w₁, []⟩ s ∧
      mapKernel s.world = some (w₂, pd') := by
  obtain ⟨x, hx, hfacts⟩ := map_eq_some_iff.mp hrun
  obtain ⟨⟨w₁, pd⟩, hk, hx⟩ := of_bind hx
  obtain ⟨s, hs, hx⟩ := of_bind hx
  obtain ⟨⟨w₂, pd'⟩, hk', hx⟩ := of_bind hx
  cases hx
  simp only [Prod.mk.injEq] at hfacts
  exact ⟨pd, s, w₁, w₂, pd', hfacts.1, hfacts.2.1, hfacts.2.2, hk,
    .tail (a := .mapPage pd.root v attr) .start
      ⟨.inr rfl, fun _ _ => .inr (private_away hv)⟩ hs, hk'⟩

end SmallKernel

end Lifetime

end Flix.Paging

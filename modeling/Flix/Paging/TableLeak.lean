import Flix.Paging.Lifetime

/-!
# The tables of a process

A directory gets a table wherever a page of it is mapped. `release` should give back the blocks
of all these tables, each once, and leave alone the tables that all directories share.

To spare the shared tables `~PageManager` skips slot 511 where the tables have two levels below
them. In the table that slot 511 of the root leads to this is the way to the shared part. In all
others it is a slot like the rest, and the tables that it leads to are not given back.
-/

namespace Flix.Paging

open Function Radix Traced

variable {w w₁ w' : World} {R : Nat → Prop} {S d : Nat}

/-! ## Ways that are gone -/

variable {q : List Nat}

theorem Kept.front {p : List Nat} (h : Kept q) (hp : p <+: q) : Kept p := by
  obtain ⟨rest, rfl⟩ := hp
  refine ⟨fun hone => h.1 ?_, fun i hi => h.2 i (mem_append_left _ hi)⟩
  rw [List.getElem?_append_left (List.getElem?_eq_some_iff.mp hone).1]
  exact hone

theorem kept_path_iff (v : VAddr) : Kept (path v) ↔ index 2 v ≠ 511 := by
  have hlt : ∀ k, index k v < 512 := fun k => Nat.mod_lt _ (by decide)
  simp [Kept, path, hlt]

/-- Every table of the directory is shared, or on a way that `~PageManager` goes. -/
def Clear (w : World) (d : Nat) : Prop :=
  ∀ q t, follow w.tables d q = some t → [511, 511] <+: q ∨ Kept q

theorem follow_singleton (w : World) (t i : Nat) : follow w.tables t [i] = slot w t i := by
  rw [slot]
  cases hn : w.tables t with
  | none =>
    rw [follow, hn]
    rfl
  | some n =>
    rw [follow_cons hn, bind_some]
    cases n.next i <;> rfl

/-- An allocation adds no table to a process. What it adds is shared. -/
theorem Took.follow_private {u phys : Nat} (ht : Took R S w w₁ u phys) (h : Sound w R S)
    (hd : R d) {x : Nat} (hq : ¬ [511, 511] <+: q) (hx : follow w₁.tables d q = some x) :
    follow w.tables d q = some x := by
  induction q using List.reverseRecOn generalizing x with
  | nil => exact hx
  | append_singleton q i ih =>
    have hq' : ¬ [511, 511] <+: q := fun hc => hq (hc.trans (List.prefix_append q [i]))
    rw [follow_append] at hx ⊢
    obtain ⟨t, hqt, hx⟩ := of_bind hx
    have hold := ih hq' hqt
    have hne : ¬ (t = S ∧ i = 256 + u / 256) := by
      rintro ⟨rfl, -⟩
      exact hq' (h.path_unique hd hd hold (h.rootShares hd) ▸ List.prefix_refl _)
    rw [hold, bind_some, follow_singleton, ← ht.slots hne, ← follow_singleton]
    exact hx

theorem Took.clear {u phys : Nat} (ht : Took R S w w₁ u phys) (h : Sound w R S) (hd : R d)
    (hclear : Clear w d) : Clear w₁ d := by
  intro q t hq
  by_cases hs : [511, 511] <+: q
  · exact .inl hs
  · exact hclear q t (ht.follow_private h hd hs hq)

/-- The tables that are made on a way that is gone. -/
theorem clear_creates (hd : R d) (init : Entry → Entry) :
    Creates R S allocBlock init (fun r p => r = d ∧ Kept p) fun w w' =>
      Tidy R w w' ∧ (w.heap.allocating = false → Backed w → Clear w d → Clear w' d) := by
  intro w r t i q n w₁ u phys e h hr hq hlen hP hn hi ha
  obtain ⟨rfl, hkept⟩ := hP
  have hregion : q ++ [i] ≠ region u := by
    intro hc
    refine hkept.1 ?_
    rw [hc]
    rfl
  obtain ⟨hs, hext, hnext, -⟩ := allocBlock_creates init e h hr hq hlen trivial hn hi ha
  refine ⟨hs, hext, hnext, creation_tidy h hr hq hregion hn hi ha hlen _, fun hidle hback hclear => ?_⟩
  obtain ⟨ht, hq1, n1, hn1, -⟩ := creation_slot h hr hq hregion hn hi ha hidle hback
  intro p x hp
  rcases follow_link_cases ht.alloc.sound ht.alloc.block (by rw [hn1]; rfl) hr hp with
    ⟨hold, -⟩ | ⟨rfl, q', rfl, hq'⟩
  · exact ht.clear h hr hclear p x hold
  · rw [ht.alloc.sound.path_unique hr hr hq' hq1]
    exact .inr hkept

theorem refillPool_clear (h : Sound w R S) (hd : R d) (hidle : w.heap.allocating = false)
    (hback : Backed w) (hclear : Clear w d) (hr : refillPool w = some w') : Clear w' d := by
  have hkeep : Refilled R S w w' ∧ Clear w' d := by
    refine refillPool_induct (P := fun x => Refilled R S w x ∧ Clear x d) ⟨.refl h, hclear⟩ (fun {x w₁ u phys} hx ha => ?_) hr
    obtain ⟨href, hclear⟩ := hx
    have hidle := href.grown.allocating.trans hidle
    obtain ⟨-, ht⟩ :=
      allocBlock_took href.sound hidle (allocBlock_room hidle (href.backed hback).room ha) ha
    exact ⟨href.round ha, ht.clear href.sound hd hclear⟩
  exact hkeep.2

theorem mapPageTo_clear {paddr attr : Nat} {v : VAddr} (h : Sound w R S) (hd : R d)
    (hv : index 2 v ≠ 511) (hidle : w.heap.allocating = false) (hback : Backed w)
    (hclear : Clear w d) (hm : mapPageTo w d v paddr attr = some w') : Clear w' d := by
  obtain ⟨-, w₁, t, w2, h1, -, ⟨htidy, hclear1⟩, -, hp, -, hwrite, h2, -, hrefill⟩ :=
    mapPageTo_writes (P := fun r p => r = d ∧ Kept p)
      (Q := fun w w' => Tidy R w w' ∧
        (w.heap.allocating = false → Backed w → Clear w d → Clear w' d))
      (fun w => ⟨.refl w, fun _ _ hc => hc⟩)
      (fun hab hbc => ⟨hab.1.trans hbc.1, fun hi hb hc =>
        hbc.2 (hab.1 hi hb).1 (hab.1 hi hb).2.1 (hab.2 hi hb hc)⟩)
      (clear_creates hd _) h hd (fun hp => ⟨rfl, ((kept_path_iff v).mpr hv).front hp⟩) hm
  obtain ⟨hidle1, hback1, -⟩ := htidy hidle hback
  obtain ⟨hidle2, hback2, -⟩ := hwrite.tidy h1 hd (.inr hp) hidle1 hback1
  have hclear2 : Clear w2 d := fun q x hq =>
    hclear1 hidle hback hclear q x (hwrite.follow_eq.symm.trans hq)
  exact refillPool_clear h2 hd hidle2 hback2 hclear2 hrefill

theorem mapPageTo_follow {paddr attr : Nat} {v : VAddr} (h : Sound w R S) (hd : R d)
    (hm : mapPageTo w d v paddr attr = some w') : ∃ t, follow w'.tables d (path v) = some t := by
  obtain ⟨-, w₁, t, w2, -, -, -, hf, -, -, hwrite, h2, -, hrefill⟩ :=
    mapPageTo_writes (P := fun _ _ => True) Grown.refl Grown.trans (allocBlock_creates _) h hd
      (fun _ => trivial) hm
  exact ⟨t, (refillPool_spec h2 hrefill).ext.follow_eq (hwrite.follow_eq.trans hf)⟩

/-! ## Blocks of others -/

/-- A block that the directories do not lead to stays as it is. -/
theorem Stray.mono {b : Nat} (hb : Stray R w b) (h' : Sound w' R S) (hext : Extends R w w')
    (hfresh : ∀ {x}, Fresh w x → Fresh w' x) : Stray R w' b := by
  cases hn : w.tables b with
  | none => exact (hfresh ⟨hn, hb.used, hb.noPool⟩).stray h'
  | some n =>
    have hlive : (w.tables b).isSome := by
      rw [hn]
      rfl
    have hlive' := hext.live hlive
    refine ⟨h'.block hlive', fun x hx hxb => ?_, fun hr hq => ?_⟩
    · rw [← hxb, (h'.poolBlock hx).2] at hlive'
      cases hlive'
    · exact hb.unreached hr (hext.before hr hlive hq)

theorem mapKernel_new {pd : PageDirectory} (h : Sound w R S) (hm : mapKernel w = some (w', pd))
    {t : Nat} (hq : ¬ [511, 511] <+: q) (ht : follow w'.tables pd.root q = some t) :
    w.tables t = none := by
  obtain ⟨w₁, phys, w3, u', phys', e, e', ha, ha', rfl, -⟩ := mapKernel_cases h hm
  have halloc := allocBlock_spec h ha
  obtain ⟨h2, hext2, -⟩ := halloc.blank
  have halloc' := allocBlock_spec h2 ha'
  have hold : ∀ {x : Nat}, (w.tables x).isSome → x ≠ pd.root ∧ x ≠ u' := fun hx =>
    ⟨halloc.block.ne (halloc.ext.live hx),
      halloc'.block.ne (halloc'.ext.live (hext2.live hx))⟩
  have hne : u' ≠ pd.root := (halloc.second halloc').1.symm
  cases hn : w.tables t with
  | none => rfl
  | some n =>
    obtain ⟨hu, hu'⟩ := hold (by rw [hn]; rfl)
    rcases follow_new_root newRoot_root (newRoot_second hne) ht with hr | hr | ⟨q', rfl, -⟩
    · exact absurd hr.2 hu
    · exact absurd hr.2 hu'
    · exact absurd ⟨q', rfl⟩ hq

/-- What was stray before there was the directory is so afterwards. -/
theorem Stray.mapKernel {pd : PageDirectory} {b : Nat} (hb : Stray R w b) (h : Sound w R S)
    (hm : mapKernel w = some (w', pd)) : Stray (fun r => R r ∨ r = pd.root) w' b := by
  have hmap := mapKernel_spec h hm
  have h' : Sound w' R S := hmap.sound.mono .inl (hmap.ext.kernel ▸ h.kernel)
  have hb' := hb.mono h' hmap.ext hmap.grown.fresh
  refine ⟨hb'.used, hb'.noPool, ?_⟩
  rintro r q (hr | rfl) hq
  · exact hb'.unreached hr hq
  by_cases hs : [511, 511] <+: q
  · -- the kernel has the shared tables as well
    obtain ⟨rest, rfl⟩ := hs
    rw [follow_append, hmap.sound.rootShares (.inr rfl), ← hmap.sound.rootShares (.inl h'.kernel),
      ← follow_append] at hq
    exact hb'.unreached h'.kernel hq
  · cases hn : w.tables b with
    | none =>
      have hfresh := hmap.grown.fresh ⟨hn, hb.used, hb.noPool⟩
      exact hfresh.ne (hmap.sound.live (.inr rfl) hq) rfl
    | some n =>
      rw [mapKernel_new h hm hs hq] at hn
      cases hn

/-! ## The life of a directory -/

namespace TableLeak

open Runs

inductive Act where
  | mapPage (v : VAddr) (attr : Nat)
  | mapPageTo (v : VAddr) (paddr attr : Nat)

def Act.addr : Act → VAddr
  | .mapPage v _ => v
  | .mapPageTo v _ _ => v

def step (d : Nat) (w : World) : Act → Option World
  | .mapPage v attr => (Paging.mapPage w d v attr).map Prod.fst
  | .mapPageTo v paddr attr => Paging.mapPageTo w d v paddr attr

/-- An address in the part of the process. -/
def Act.Private (a : Act) : Prop := Canonical a.addr ∧ a.addr.toNat < 0xffffffffc0000000

/-- The slots of the directory, whose frames may be anyone's. -/
def slotsOf (d : Nat) (s : Slot) : Prop := s.1.1 = some d

/-- Since the directory was made, it has got all the blocks that were taken. -/
structure Inv (R : Nat → Prop) (S d : Nat) (w₀ w : World) : Prop where
  apart : ¬ R d
  sound : Sound w (fun r => R r ∨ r = d) S
  owned : OwnedBut (fun r => R r ∨ r = d) (slotsOf d) (fun _ => False) w
  kernel : w.kernel = w₀.kernel
  idle : w.heap.allocating = false
  backed : Backed w
  stray : ∀ {b}, Stray (fun r => R r ∨ r = d) w b ↔ Stray R w₀ b

variable {w₀ : World}

theorem start_inv {pd : PageDirectory} (h : Sound w₀ R S) (ho : Owned R w₀)
    (hidle : w₀.heap.allocating = false) (hback : Backed w₀)
    (hm : mapKernel w₀ = some (w, pd)) : Inv R S pd.root w₀ w := by
  have hmap := mapKernel_spec h hm
  have hnew : ¬ R pd.root := by
    intro hc
    have hlive := h.rootLive hc
    rw [hmap.new] at hlive
    cases hlive
  exact ⟨hnew, hmap.sound, (ho.mapKernel h hmap).recount fun _ hc => hc.elim, hmap.ext.kernel,
    hmap.grown.allocating.trans hidle, hmap.backed hback, hmap.stray, fun hb => hb.mapKernel h hm⟩

theorem Inv.next (h : Inv R S d w₀ w) (hst : Steady (fun r => R r ∨ r = d) S w w')
    (htidy : Tidy (fun r => R r ∨ r = d) w w')
    (ho : OwnedBut (fun r => R r ∨ r = d) (slotsOf d) (fun _ => False) w') :
    Inv R S d w₀ w' := by
  obtain ⟨hidle, hback, hstray⟩ := htidy h.idle h.backed
  exact ⟨h.apart, hst.sound, ho, hst.ext.kernel.trans h.kernel, hidle, hback,
    fun hb => h.stray.mp (hstray hb), fun hb => (h.stray.mpr hb).mono hst.sound hst.ext hst.fresh⟩

theorem Act.Private.not_shared {a : Act} (ha : a.Private) : ¬ Shared a.addr :=
  Sharing.not_shared_of_lt ha.1 ha.2

/-- One call. It leaves the tables for its address behind. -/
theorem Inv.step {a : Act} (h : Inv R S d w₀ w) (ha : a.Private) (hs : step d w a = some w') :
    Inv R S d w₀ w' ∧ Extends (fun r => R r ∨ r = d) w w' ∧
      (∃ t, follow w'.tables d (path a.addr) = some t) ∧
      (index 2 a.addr ≠ 511 → Clear w d → Clear w' d) := by
  have hv := ha.not_shared
  cases a with
  | mapPage v attr =>
    obtain ⟨⟨w₁, phys⟩, hm, rfl⟩ := map_eq_some_iff.mp hs
    have hst := mapPage_steady h.sound (.inr rfl) hm
    refine ⟨h.next hst (mapPage_tidy h.sound (.inr rfl) hm (.inr (Lifetime.private_away hv)))
      (h.owned.mapPage h.sound (.inr rfl) hm), hst.ext, ?_, fun hi hclear => ?_⟩
    · rcases mapPage_cases hm with ⟨-, -, hto⟩ | ⟨-, frames, f, -, -, -, hto⟩
      · exact mapPageTo_follow h.sound (.inr rfl) hto
      · exact mapPageTo_follow (h.sound.withFrames frames) (.inr rfl) hto
    · rcases mapPage_cases hm with ⟨-, -, hto⟩ | ⟨-, frames, f, -, -, -, hto⟩
      · exact mapPageTo_clear h.sound (.inr rfl) hi h.idle h.backed hclear hto
      · exact mapPageTo_clear (h.sound.withFrames frames) (.inr rfl) hi h.idle
          ⟨h.backed.room, h.backed.page⟩ hclear hto
  | mapPageTo v paddr attr =>
    have hm : Paging.mapPageTo w d v paddr attr = some w' := hs
    have hst := mapPageTo_steady h.sound (.inr rfl) hm
    refine ⟨h.next hst (mapPageTo_tidy h.sound (.inr rfl) hm (.inr (Lifetime.private_away hv))) ?_,
      hst.ext, mapPageTo_follow h.sound (.inr rfl) hm,
      fun hi hclear => mapPageTo_clear h.sound (.inr rfl) hi h.idle h.backed hclear hm⟩
    obtain ⟨-, w₁, w2, hgrown, -, hwrite, href, -, -⟩ :=
      mapPageTo_spec h.sound (.inr rfl) hm
    refine ((h.owned.heapSteps hgrown.steps).write_uncounted hwrite ?_).heapSteps href.grown.steps
    show (slotOf d v).1.1 = some d
    rw [slotOf_owner]
    exact if_neg hv

/-- A whole run. -/
theorem Inv.run {acts : List Act} (h : Inv R S d w₀ w) (hacts : ∀ a ∈ acts, a.Private)
    (hrun : Runs.run (TableLeak.step d) w acts = some w') :
    Inv R S d w₀ w' ∧ Extends (fun r => R r ∨ r = d) w w' ∧
      (∀ a ∈ acts, ∃ t, follow w'.tables d (path a.addr) = some t) ∧
      ((∀ a ∈ acts, index 2 a.addr ≠ 511) → Clear w d → Clear w' d) := by
  induction acts generalizing w with
  | nil =>
    cases hrun
    exact ⟨h, .refl _, fun _ ha => absurd ha not_mem_nil, fun _ hclear => hclear⟩
  | cons a acts ih =>
    obtain ⟨w₁, hs, hrun⟩ := of_bind hrun
    obtain ⟨h1, hext1, ⟨t, ht⟩, hclear1⟩ := h.step (hacts a mem_cons_self) hs
    obtain ⟨h', hext, hfollow, hclear⟩ :=
      ih h1 (fun b hb => hacts b (mem_cons_of_mem _ hb)) hrun
    refine ⟨h', hext1.trans hext, fun b hb => ?_, fun hi hc => ?_⟩
    · rcases mem_cons.mp hb with rfl | hb
      · exact ⟨t, hext.follow_eq ht⟩
      · exact hfollow b hb
    · exact hclear (fun b hb => hi b (mem_cons_of_mem _ hb))
        (hclear1 (hi a mem_cons_self) hc)

/-! ## The end -/

/-- The frames of the others are in order, whatever the directory has mapped. -/
theorem Inv.others_owned (h : Inv R S d w₀ w) : Owned R w := by
  refine (h.owned.mono .inl).recount fun {r v} hr hc _ => ?_
  replace hc : (slotOf r v).1.1 = some d := hc
  rw [slotOf_owner] at hc
  split at hc
  · cases hc
  · cases hc
    exact absurd hr h.apart

theorem Inv.kernel_mem (h : Inv R S d w₀ w) (h₀ : Sound w₀ R S) : R w.kernel.root := by
  rw [h.kernel]
  exact h₀.kernel

/-- `release` comes to its end. -/
theorem Inv.release (h : Inv R S d w₀ w) (h₀ : Sound w₀ R S) (hb : w.frames.length ≤ 2 ^ 40) :
    ∃ w', (release w d : Traced Call World).result = some w' ∧
      Down R S w (Own w.tables d) w' := by
  have hspec := release_spec h.sound h.apart (fun _ : True => ⟨hb, h.backed⟩) (h.kernel_mem h₀)
    h.others_owned
  obtain ⟨w', hres⟩ := isSome_iff_exists.mp (hspec.total trivial)
  exact ⟨w', hres, hspec.post hres⟩

/-- A table that only this directory has. -/
def PrivateTable (w : World) (r t : Nat) : Prop :=
  ∃ q, ¬ [511, 511] <+: q ∧ follow w.tables r q = some t

/-- A block that is live: in use, and neither in the pool nor a table of the kernel directory,
where the heap puts its own. -/
def LiveBlock (w : World) (b : Nat) : Prop := Stray (· = w.kernel.root) w b

/-- All tables of the directory are given back, and only they: from `w₀`, before it was made,
over `w`, when it is released, to `w'`. -/
structure GivesAll (w₀ w w' : World) (d : Nat) : Prop where
  once : ∀ b, PrivateTable w d b →
    timesGiven (Paging.release w d : Traced Call World).calls (.block b) = 1
  never : ∀ b, SharedTable w d b →
    timesGiven (Paging.release w d : Traced Call World).calls (.block b) = 0
  live : ∀ b, LiveBlock w' b ↔ LiveBlock w₀ b

section Release

variable (h : Inv R S d w₀ w) (h₀ : Sound w₀ R S)
  (hres : (Paging.release w d : Traced Call World).result = some w')
  (hdown : Down R S w (Own w.tables d) w')
include h hres hdown

/-- A table that is on no way of `~PageManager` is not given back. -/
theorem Inv.never_given {b : Nat} {q : List Nat} (hq : follow w.tables d q = some b)
    (hkept : ¬ Kept q) :
    timesGiven (Paging.release w d : Traced Call World).calls (.block b) = 0 := by
  refine Spends.never (release_givesBack w d w' hres) (.inl ((hdown.torn.map b).mpr ?_))
  refine ⟨h.sound.block (h.sound.live (.inr rfl) hq), ?_⟩
  rintro ⟨p, hp, hpb⟩
  exact hkept (h.sound.path_unique (.inr rfl) (.inr rfl) hq hpb ▸ hp)

theorem Inv.shared_never {b : Nat} (hb : SharedTable w d b) :
    timesGiven (Paging.release w d : Traced Call World).calls (.block b) = 0 := by
  obtain ⟨q, ⟨rest, rfl⟩, hq⟩ := hb
  exact h.never_given hres hdown hq fun hkept => hkept.1 rfl

/-- The table above a page at such an address is the directory's own, and stays. -/
theorem Inv.not_givesAll {v : VAddr} {t : Nat} (hv : ¬ Shared v) (hi : index 2 v = 511)
    (ht : follow w.tables d (path v) = some t) : ¬ GivesAll w₀ w w' d := by
  intro hall
  rw [show path v = [index 3 v, index 2 v] ++ [index 1 v] from rfl, follow_append] at ht
  obtain ⟨u, hu, -⟩ := of_bind ht
  have hprivate : ¬ [511, 511] <+: [index 3 v, index 2 v] := fun hc =>
    hv ⟨(List.cons_prefix_cons.mp hc).1.symm, hi⟩
  have hone := hall.once u ⟨_, hprivate, hu⟩
  rw [h.never_given hres hdown hu fun hkept => hkept.1 (congrArg some hi)] at hone
  cases hone

section Clear

variable (hclear : Clear w d)
include hclear

theorem Inv.private_once {b : Nat} (hb : PrivateTable w d b) :
    timesGiven (Paging.release w d : Traced Call World).calls (.block b) = 1 := by
  obtain ⟨q, hq, hqb⟩ := hb
  have hkept : Kept q := (hclear q b hqb).resolve_left hq
  refine Spends.once (release_givesBack w d w' hres)
    (h.sound.block (h.sound.live (.inr rfl) hqb)) fun hc => ?_
  exact ((hdown.torn.map b).mp hc).2 ⟨q, hkept, hqb⟩

include h₀ in
omit hres in
/-- What is stray in the end was stray at the start. -/
theorem Inv.stray_iff {b : Nat} : Stray R w' b ↔ Stray R w₀ b := by
  rw [← h.stray]
  constructor
  · intro hb
    obtain ⟨hused, hnot⟩ := (hdown.torn.map b).mp hb.used
    have hR : ∀ {r q}, R r → follow w.tables r q ≠ some b := fun hr hq =>
      hb.unreached hr ((hdown.torn.follow_eq hr).trans hq)
    refine ⟨hused, hdown.torn.pool ▸ hb.noPool, ?_⟩
    rintro r q (hr | rfl) hq
    · exact hR hr hq
    rcases hclear q b hq with ⟨rest, rfl⟩ | hkept
    · have hk := h.kernel_mem h₀
      rw [follow_append, h.sound.rootShares (.inr rfl), ← h.sound.rootShares (.inl hk),
        ← follow_append] at hq
      exact hR hk hq
    · exact hnot ⟨q, hkept, hq⟩
  · intro hb
    refine ⟨(hdown.torn.map b).mpr ⟨hb.used, ?_⟩, hdown.torn.pool.symm ▸ hb.noPool, ?_⟩
    · rintro ⟨q, -, hq⟩
      exact hb.unreached (.inr rfl) hq
    · intro r q hr hq
      exact hb.unreached (.inl hr) ((hdown.torn.follow_eq hr).symm.trans hq)

end Clear

end Release

/-- **No table leaks exactly when no address has index 511 where the tables have two levels below
them.** A directory is made, pages are mapped in its own part, and it is released. -/
theorem release_gives_all_iff {w₀ w₁ w : World} {R : Nat → Prop} {S : Nat} {pd : PageDirectory}
    {acts : List Act} (h : Sound w₀ R S) (ho : Owned R w₀) (hidle : w₀.heap.allocating = false)
    (hback : Backed w₀) (hm : mapKernel w₀ = some (w₁, pd)) (hacts : ∀ a ∈ acts, a.Private)
    (hrun : run (step pd.root) w₁ acts = some w) (hb : w.frames.length ≤ 2 ^ 40) :
    ∃ w', (Paging.release w pd.root : Traced Call World).result = some w' ∧
      (GivesAll w₀ w w' pd.root ↔ ∀ a ∈ acts, index 2 a.addr ≠ 511) := by
  -- the directories besides the kernel's do not matter
  have h₀ : Sound w₀ (· = w₀.kernel.root) S := h.mono (fun hr => hr ▸ h.kernel) rfl
  have ho₀ : Owned (· = w₀.kernel.root) w₀ := ho.mono fun hr => hr ▸ h.kernel
  obtain ⟨hinv, -, hfollow, hclear⟩ :=
    (start_inv h₀ ho₀ hidle hback hm).run hacts hrun
  obtain ⟨w', hres, hdown⟩ := hinv.release h₀ hb
  refine ⟨w', hres, fun hall a ha hi => ?_, fun hi => ?_⟩
  · obtain ⟨t, ht⟩ := hfollow a ha
    exact hinv.not_givesAll hres hdown (hacts a ha).not_shared hi ht hall
  · have hclear' : Clear w pd.root := hclear hi ?_
    · have hkernel : w'.kernel = w₀.kernel := hdown.torn.kernel.trans hinv.kernel
      refine ⟨fun b hb => hinv.private_once hres hdown hclear' hb,
        fun b hb => hinv.shared_never hres hdown hb, fun b => ?_⟩
      rw [LiveBlock, LiveBlock, hkernel]
      exact hinv.stray_iff h₀ hdown hclear'
    · intro q t hq
      obtain ⟨u', hbelow⟩ := (mapKernel_spec h₀ hm).below
      rcases hbelow hq with ⟨rfl, -⟩ | ⟨rfl, -⟩ | hs
      · exact .inr ⟨by simp, by simp⟩
      · exact .inr ⟨by simp, by simp⟩
      · exact .inl hs

/-- A directory is made and gets a page. -/
def onePage (w₀ : World) (v : VAddr) : Option (PageDirectory × World × World) := do
  let (w₁, pd) ← mapKernel w₀
  let w ← run (step pd.root) w₁ [.mapPage v 7]
  some (pd, w₁, w)

theorem onePage_run {v : VAddr} (hv : Low v)
    (hx : (onePage smallKernel v).map (fun x => x.2.2.frames.length) = some 64) :
    ∃ pd w₁ w, mapKernel smallKernel = some (w₁, pd) ∧
      run (step pd.root) w₁ [.mapPage v 7] = some w ∧ w.frames.length = 64 ∧
      ∀ a ∈ [Act.mapPage v 7], a.Private := by
  obtain ⟨x, hx, hlen⟩ := map_eq_some_iff.mp hx
  obtain ⟨⟨w₁, pd⟩, hk, hx⟩ := of_bind hx
  obtain ⟨w, hrun, hx⟩ := of_bind hx
  cases hx
  refine ⟨pd, w₁, w, hk, hrun, hlen, fun a ha => ?_⟩
  obtain rfl := mem_singleton.mp ha
  exact ⟨.inl hv, hv.trans (by decide)⟩

/-- The page is at 0x400000. -/
theorem release_gives_all_iff_low : ∃ w₁ w w' pd, mapKernel smallKernel = some (w₁, pd) ∧
    run (step pd.root) w₁ [.mapPage 0x400000 7] = some w ∧
    (Paging.release w pd.root : Traced Call World).result = some w' ∧
    GivesAll smallKernel w w' pd.root := by
  obtain ⟨pd, w₁, w, hk, hrun, hlen, hprivate⟩ :=
    onePage_run (v := 0x400000) (by decide) (by decide +kernel)
  obtain ⟨w', hres, hiff⟩ := release_gives_all_iff smallKernel_sound smallKernel_owned rfl
    Lifetime.smallKernel_backed hk hprivate hrun (by omega)
  refine ⟨w₁, w, w', pd, hk, hrun, hres, hiff.mpr fun a ha => ?_⟩
  obtain rfl := mem_singleton.mp ha
  decide

/-- **A table is lost** that a page at 0x7fc0000000, in the lower half, has needed. -/
theorem table_lost : ∃ w₁ w w' pd, mapKernel smallKernel = some (w₁, pd) ∧
    run (step pd.root) w₁ [.mapPage 0x7fc0000000 7] = some w ∧
    (Paging.release w pd.root : Traced Call World).result = some w' ∧
    ¬ GivesAll smallKernel w w' pd.root := by
  obtain ⟨pd, w₁, w, hk, hrun, hlen, hprivate⟩ :=
    onePage_run (v := 0x7fc0000000) (by decide) (by decide +kernel)
  obtain ⟨hinv, -, hfollow, -⟩ := (start_inv smallKernel_sound smallKernel_owned rfl
    Lifetime.smallKernel_backed hk).run hprivate hrun
  obtain ⟨w', hres, hdown⟩ := hinv.release smallKernel_sound (by omega)
  obtain ⟨t, ht⟩ := hfollow _ (mem_singleton.mpr rfl)
  exact ⟨w₁, w, w', pd, hk, hrun, hres,
    hinv.not_givesAll hres hdown (hprivate _ (mem_singleton.mpr rfl)).not_shared (by decide)
      ht⟩

end TableLeak

end Flix.Paging

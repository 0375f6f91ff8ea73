import Flix.Paging.Sound

/-!
# Walks through the tables

What `getEntry` finds is what `follow` finds, and what `getEntryCreate` leaves
behind. A table that is created is in a block of the page heap which is no table
yet; linking it keeps the tables sound and, for each root in use, leaves every
entry as it was or makes it zero. The latter happens where the allocation of the
block has itself put something below the slot that is written then.
-/

namespace Flix.Paging

open Function Radix

variable {w w₁ : World} {R : Nat → Prop} {S : Nat}

/-! ## Reading -/

variable {r t : Nat} {v : VAddr}

/-- What a walk finds. -/
theorem Sound.getEntry_eq (h : Sound w R S) {stop n : Nat} {q : List Nat} (v : VAddr)
    (hr : R r) (hq : follow w.tables r q = some t) (hlen : q.length + n ≤ 3) :
    getEntry w.tables stop n t v
      = some ((follow w.tables t (pathTo stop n v)).map fun t' => (t', index stop v)) := by
  induction n generalizing q t with
  | zero => rfl
  | succ n ih =>
    obtain ⟨nd, hnd⟩ := isSome_iff_exists.mp (h.live hr hq)
    simp only [getEntry, hnd, bind_eq_bind, bind_some, pathTo, follow_cons hnd]
    cases hu : nd.next (index (stop + n + 1) v) with
    | none =>
      have habs := h.absent hr hq hnd (by omega) hu
      rw [assert_pos habs]
      rfl
    | some u =>
      refine ih ((follow_snoc hq hnd).trans hu) ?_
      rw [length_append, List.length_singleton]
      omega

theorem Sound.getPage_eq (h : Sound w R S) (hr : R r) (v : VAddr) : getEntry w.tables 0 3 r v
      = some ((follow w.tables r (path v)).map fun t => (t, index 0 v)) :=
  h.getEntry_eq (q := []) v hr rfl le_rfl

theorem pte_of_follow {n : Node Entry}
    (ht : follow w.tables r (path v) = some t) (hn : w.tables t = some n) :
    pte w r v = n.entries (index 0 v) := leaf_of_follow ht hn

theorem pte_of_none (ht : follow w.tables r (path v) = none) : pte w r v = .zero := leaf_of_none ht

theorem Sound.entry_eq (h : Sound w R S) (hr : R r)
    (ht : follow w.tables r (path v) = some t) : w.entry t (index 0 v) = some (pte w r v) := by
  obtain ⟨n, hn⟩ := isSome_iff_exists.mp (h.live hr ht)
  rw [World.entry, hn, pte_of_follow ht hn]
  rfl

theorem Sound.resolve_eq (h : Sound w R S) (hr : R r) (v : VAddr) : resolve w r v
      = some (if (pte w r v).p then (pte w r v).base * PAGE_SIZE else INVALID_PHYS) := by
  rw [resolve, h.getPage_eq hr]
  cases hf : follow w.tables r (path v) with
  | none =>
    rw [pte_of_none hf]
    rfl
  | some t =>
    simp only [map_some, bind_eq_bind, bind_some, h.entry_eq hr hf]

/-! ## Writing an entry -/

theorem setEntry_tables (t i : Nat) (e : Entry) :
    (w.setEntry t i e).tables = Radix.setEntry w.tables t i e := rfl

theorem setEntry_isSome {i t' : Nat} {e : Entry} :
    ((w.setEntry t i e).tables t').isSome ↔ (w.tables t').isSome := by
  by_cases hne : t' = t
  · subst hne
    simp [World.setEntry, Radix.setEntry]
  · rw [setEntry_tables, setEntry_of_ne hne]

/-- A write to an entry of a page is seen at its slot, in all directories. -/
theorem Sound.pte_setEntry (h : Sound w R S) {r' : Nat} (hr : R r)
    (hr' : R r') (ht : follow w.tables r (path v) = some t) (e : Entry) (v' : VAddr) :
    pte (w.setEntry t (index 0 v) e) r' v'
      = if slotOf r' v' = slotOf r v then e else pte w r' v' := by
  rw [pte, setEntry_tables, leaf_setEntry (h.live hr ht), ← pte]
  -- the table is reached from the other root exactly if the labels agree
  have hiff : (follow w.tables r' (path v') = some t ∧ index 0 v' = index 0 v)
      ↔ slotOf r' v' = slotOf r v := by
    constructor
    · rintro ⟨ht', hi⟩
      rw [slotOf, slotOf, h.label hr' hr ht' ht, hi]
    · intro hs
      obtain ⟨⟨hp, hi⟩, -⟩ := slotOf_eq_iff.mp hs
      have hl := congrArg Prod.fst hs
      rw [slotOf, slotOf, ← hp] at hl
      rw [h.follow_of_label hr' hr hl, hp, ht]
      exact ⟨rfl, hi⟩
  by_cases hs : slotOf r' v' = slotOf r v
  · rw [if_pos (hiff.mpr hs), if_pos hs]
  · rw [if_neg (fun e => hs (hiff.mp e)), if_neg hs]

/-- A write to an entry of the last level keeps the tables sound. -/
theorem Sound.setEntry (h : Sound w R S) (hr : R r)
    (ht : follow w.tables r (path v) = some t) (i : Nat) (e : Entry) :
    Sound (w.setEntry t i e) R S := by
  have hfollow : ∀ {r p}, follow (w.setEntry t i e).tables r p = follow w.tables r p :=
    follow_setEntry
  refine ⟨h.kernel, ?_, ?_, ?_, ?_, ?_, ?_, ?_, h.poolNodup⟩
  · exact fun hr => hfollow.trans (h.rootShares hr)
  · exact fun hr hp => setEntry_isSome.mpr (h.live hr (hfollow.symm.trans hp))
  · exact fun hr hr' hp hp' =>
      h.label hr hr' (hfollow.symm.trans hp) (hfollow.symm.trans hp')
  · exact fun hr hp => h.depth hr (hfollow.symm.trans hp)
  · intro r' p t' n i' hr' hp hn hlen hnone
    rw [hfollow] at hp
    have hne : t' ≠ t := by
      rintro rfl
      rw [h.path_unique hr' hr hp ht] at hlen
      exact absurd hlen (by simp [path])
    rw [setEntry_tables, setEntry_of_ne hne] at hn
    exact h.absent hr' hp hn hlen hnone
  · exact fun ht' => h.block (setEntry_isSome.mp ht')
  · intro b hb
    obtain ⟨hmap, hnone⟩ := h.poolBlock hb
    refine ⟨hmap, ?_⟩
    rcases hc : (w.setEntry t i e).tables b.1 with _ | n'
    · rfl
    · have hb' : (w.tables b.1).isSome := setEntry_isSome.mp (by rw [hc]; rfl)
      rw [hnone] at hb'
      cases hb'

/-! ## A new table -/

/-- A block that is allocated, and nothing is in it. -/
structure Fresh (w : World) (u : Nat) : Prop where
  noTable : w.tables u = none
  used : w.heap.map[u]? = some true
  noPool : ∀ b ∈ w.heap.pool, b.1 ≠ u

theorem Fresh.ne {u : Nat} (hu : Fresh w u) (ht : (w.tables t).isSome) : t ≠ u := by
  rintro rfl
  rw [hu.noTable] at ht
  cases ht

/-- A blank table in block `u`, named in slot `i` of table `t`. -/
def World.link (w : World) (t i u : Nat) (e : Entry) : World :=
  { w with
    tables := Radix.setEntry (setNext (update w.tables u (some (Node.blank .zero))) t i u) t i e }

section Link

variable {t i u : Nat} {e : Entry} {n : Node Entry}

theorem link_tables : (w.link t i u e).tables
    = Radix.setEntry (setNext (update w.tables u (some (Node.blank .zero))) t i u) t i e := rfl

theorem link_at (hu : u ≠ t) (hn : w.tables t = some n) :
    (w.link t i u e).tables t
      = some ⟨update n.entries i e, update n.next i (some u)⟩ := by
  have hnew : update w.tables u (some (Node.blank .zero)) t = some n := by
    rw [update_of_ne (Ne.symm hu), hn]
  exact setEntry_self (setNext_self hnew)

theorem link_new (hu : u ≠ t) : (w.link t i u e).tables u = some (Node.blank .zero) := by
  rw [link_tables, setEntry_of_ne hu, setNext_of_ne hu, update_self]

theorem link_of_ne {t' : Nat} (ht : t' ≠ t) (hu : t' ≠ u) :
    (w.link t i u e).tables t' = w.tables t' := by
  rw [link_tables, setEntry_of_ne ht, setNext_of_ne ht, update_of_ne hu]

theorem link_next (hu : Fresh w u) (hn : w.tables t = some n) :
    ∃ n', (w.link t i u e).tables t = some n' ∧ n'.next i = some u :=
  ⟨_, link_at (hu.ne (by rw [hn]; rfl)).symm hn, update_self ..⟩

theorem Fresh.link {x : Nat} (hx : Fresh w x) (ht : (w.tables t).isSome) (hne : x ≠ u) :
    Fresh (w.link t i u e) x :=
  ⟨(link_of_ne (hx.ne ht).symm hne).trans hx.noTable, hx.used, hx.noPool⟩

variable {r : Nat} {p : List Nat}

theorem via_new (hu : w.tables u = none) :
    Via (update w.tables u (some (Node.blank Entry.zero))) t i r p ↔ Via w.tables t i r p := by
  simp only [Via, follow_new hu]

theorem follow_link_of_not_via (hu : w.tables u = none) (hv : ¬ Via w.tables t i r p) :
    follow (w.link t i u e).tables r p = follow w.tables r p := by
  rw [link_tables, follow_setEntry,
    follow_setNext_of_not_via (fun hc => hv ((via_new hu).mp hc)), follow_new hu]

theorem follow_link_via (rest : List Nat) (h : Sound w R S) (hu : Fresh w u)
    (ht : (w.tables t).isSome) (hr : R r) {q : List Nat} (hq : follow w.tables r q = some t) :
    follow (w.link t i u e).tables r (q ++ i :: rest) = if rest = [] then some u else none := by
  have hut := (hu.ne ht).symm
  have htT : (update w.tables u (some (Node.blank Entry.zero)) t).isSome := by
    rw [update_of_ne hut.symm]
    exact ht
  have hblank : setNext (update w.tables u (some (Node.blank Entry.zero))) t i u u
      = some (Node.blank .zero) := by
    rw [setNext_of_ne hut, update_self]
  rw [link_tables, follow_setEntry, follow_setNext_via _ htT (by rw [follow_new hu.noTable, hq])]
  · cases rest with
    | nil => rfl
    | cons k rest =>
      rw [follow_cons hblank]
      rfl
  · intro q q' hq hq'
    rw [follow_new hu.noTable] at hq hq'
    rw [h.path_unique hr hr hq hq']

/-- What a path leads to after linking. -/
theorem follow_link_cases (h : Sound w R S) (hu : Fresh w u) (ht : (w.tables t).isSome)
    {t' : Nat} (hr : R r) (hp : follow (w.link t i u e).tables r p = some t') :
    (follow w.tables r p = some t' ∧ t' ≠ u) ∨
      (t' = u ∧ ∃ q, p = q ++ [i] ∧ follow w.tables r q = some t) := by
  by_cases hv : Via w.tables t i r p
  · obtain ⟨q, rest, rfl, hq⟩ := hv
    rw [follow_link_via _ h hu ht hr hq] at hp
    obtain ⟨rfl, heq⟩ := Option.ite_none_right_eq_some.mp hp
    exact .inr ⟨(Option.some.inj heq).symm, q, rfl, hq⟩
  · rw [follow_link_of_not_via hu.noTable hv] at hp
    exact .inl ⟨hp, hu.ne (h.live hr hp)⟩

/-- Linking keeps the tables sound, if the way to the shared table did not go there. -/
theorem Sound.link (h : Sound w R S) (hu : Fresh w u) (hn : w.tables t = some n)
    (hlen : ∀ {r q}, R r → follow w.tables r q = some t → q.length < 3)
    (hroot : ∀ {r}, R r → ¬ Via w.tables t i r [511, 511]) : Sound (w.link t i u e) R S := by
  have ht : (w.tables t).isSome := by rw [hn]; rfl
  have hut := (hu.ne ht).symm
  refine ⟨h.kernel, ?_, ?_, ?_, ?_, ?_, ?_, ?_, h.poolNodup⟩
  · intro r hr
    rw [follow_link_of_not_via hu.noTable (hroot hr)]
    exact h.rootShares hr
  · intro r p t' hr hp
    rcases follow_link_cases h hu ht hr hp with ⟨hp, hne⟩ | ⟨rfl, -⟩
    · by_cases htt : t' = t
      · rw [htt, link_at hut hn]
        rfl
      · rw [link_of_ne htt hne]
        exact h.live hr hp
    · rw [link_new hut]
      rfl
  · intro r r' p p' t' hr hr' hp hp'
    rcases follow_link_cases h hu ht hr hp with ⟨hp, hne⟩ | ⟨rfl, q, rfl, hq⟩
    · rcases follow_link_cases h hu ht hr' hp' with ⟨hp', -⟩ | ⟨hc, -⟩
      · exact h.label hr hr' hp hp'
      · exact absurd hc hne
    · rcases follow_link_cases h hu ht hr' hp' with ⟨-, hne⟩ | ⟨-, q', rfl, hq'⟩
      · exact absurd rfl hne
      · rw [labelOf_snoc, labelOf_snoc, h.label hr hr' hq hq']
  · intro r p t' hr hp
    rcases follow_link_cases h hu ht hr hp with ⟨hp, -⟩ | ⟨rfl, q, rfl, hq⟩
    · exact h.depth hr hp
    · have := hlen hr hq
      rw [length_append, List.length_singleton]
      omega
  · intro r p t' n' i' hr hp hn' hlen' hnone
    rcases follow_link_cases h hu ht hr hp with ⟨hold, hne⟩ | ⟨rfl, -⟩
    · by_cases htt : t' = t
      · subst htt
        rw [link_at hut hn] at hn'
        cases hn'
        have hi : i' ≠ i := by
          rintro rfl
          simp at hnone
        have hnone' : n.next i' = none := by simpa [update_of_ne hi] using hnone
        simpa [update_of_ne hi] using h.absent hr hold hn hlen' hnone'
      · rw [link_of_ne htt hne] at hn'
        exact h.absent hr hold hn' hlen' hnone
    · rw [link_new hut] at hn'
      cases hn'
      rfl
  · intro t' ht'
    by_cases htu : t' = u
    · rw [htu]
      exact hu.used
    · by_cases htt : t' = t
      · rw [htt]
        exact h.block ht
      · rw [link_of_ne htt htu] at ht'
        exact h.block ht'
  · intro b hb
    obtain ⟨hmap, hnone⟩ := h.poolBlock hb
    have htb : b.1 ≠ t := by
      intro hbt
      rw [hbt, hn] at hnone
      cases hnone
    exact ⟨hmap, (link_of_ne htb (hu.noPool b hb)).trans hnone⟩

/-- What is seen after linking: nothing through the slot, elsewhere what was seen before. -/
theorem Sound.pte_link (h : Sound w R S) (hu : Fresh w u) (ht : (w.tables t).isSome)
    (hlen : ∀ {r q}, R r → follow w.tables r q = some t → q.length < 3) (hr : R r)
    (v : VAddr) [Decidable (Via w.tables t i r (path v))] :
    pte (w.link t i u e) r v = if Via w.tables t i r (path v) then .zero else pte w r v := by
  have hut := (hu.ne ht).symm
  by_cases hv : Via w.tables t i r (path v)
  · rw [if_pos hv]
    obtain ⟨q, rest, hp, hq⟩ := hv
    have hf : follow (w.link t i u e).tables r (path v) = if rest = [] then some u else none := by
      rw [hp]
      exact follow_link_via _ h hu ht hr hq
    rcases rest with _ | ⟨k, rest⟩
    · exact pte_of_follow hf (link_new hut)
    · exact pte_of_none hf
  · rw [if_neg hv, pte, pte, leaf, leaf, follow_link_of_not_via hu.noTable hv]
    cases hf : follow w.tables r (path v) with
    | none => rfl
    | some t' =>
      -- a table of the last level, so it is not the one that was written
      have hne : t' ≠ t := by
        rintro rfl
        exact absurd (hlen hr hf) (by simp [path])
      rw [bind_some, bind_some, link_of_ne hne (hu.ne (h.live hr hf))]

end Link

/-! ## Creating walks -/

/-- What a walk, or anything else in between, leaves alone. -/
structure Extends (R : Nat → Prop) (w w' : World) : Prop where
  node : ∀ {t n}, w.tables t = some n →
    ∃ n', w'.tables t = some n' ∧ ∀ {i u}, n.next i = some u → n'.next i = some u
  /-- No new way leads to an old table. -/
  before : ∀ {r q t}, R r → (w.tables t).isSome → follow w'.tables r q = some t →
    follow w.tables r q = some t
  /-- Tables of other directories stay as they are. -/
  foreign : ∀ {t}, (w.tables t).isSome → (∀ {r q}, R r → follow w.tables r q ≠ some t) →
    w'.tables t = w.tables t
  kernel : w'.kernel = w.kernel
  start : w'.pageHeapStart = w.pageHeapStart

namespace Extends

variable {w₂ : World}

variable {t : Nat}

theorem live (h : Extends R w w₁) (ht : (w.tables t).isSome) : (w₁.tables t).isSome := by
  obtain ⟨n, hn⟩ := isSome_iff_exists.mp ht
  obtain ⟨n', hn', -⟩ := h.node hn
  rw [hn']
  rfl

theorem follow_eq (h : Extends R w w₁) {t' : Nat} {p : List Nat}
    (hp : follow w.tables t p = some t') : follow w₁.tables t p = some t' := by
  induction p generalizing t with
  | nil => exact hp
  | cons i p ih =>
    obtain ⟨n, hn, hp⟩ := of_bind hp
    obtain ⟨u, hu, hp⟩ := of_bind hp
    obtain ⟨n', hn', hnext⟩ := h.node hn
    rw [follow_cons hn', hnext hu]
    exact ih hp

theorem of_tables (ht : w₁.tables = w.tables) (hk : w₁.kernel = w.kernel)
    (hs : w₁.pageHeapStart = w.pageHeapStart) : Extends R w w₁ := by
  refine ⟨?_, ?_, ?_, hk, hs⟩
  all_goals simp only [ht]
  · exact fun hn => ⟨_, hn, fun hu => hu⟩
  · exact fun _ _ hq => hq
  · exact fun _ _ => trivial

theorem refl (w : World) : Extends R w w := .of_tables rfl rfl rfl

theorem trans (h : Extends R w w₁) (h' : Extends R w₁ w₂) : Extends R w w₂ := by
  refine ⟨?_, ?_, ?_, h'.kernel.trans h.kernel, h'.start.trans h.start⟩
  · intro t n hn
    obtain ⟨n', hn', hnext⟩ := h.node hn
    obtain ⟨n'', hn'', hnext'⟩ := h'.node hn'
    exact ⟨n'', hn'', fun hu => hnext' (hnext hu)⟩
  · exact fun hr ht hq => h.before hr ht (h'.before hr (h.live ht) hq)
  · intro t ht hfar
    rw [h'.foreign (h.live ht) (fun hr hq => hfar hr (h.before hr ht hq)), h.foreign ht hfar]

theorem setEntry {r : Nat} {p : List Nat} (hr : R r) (ht : follow w.tables r p = some t)
    (i : Nat) (e : Entry) : Extends R w (w.setEntry t i e) := by
  refine ⟨?_, ?_, ?_, rfl, rfl⟩
  · intro t' n hn
    by_cases hne : t' = t
    · subst hne
      exact ⟨_, setEntry_self hn, fun hu => hu⟩
    · exact ⟨n, by rw [setEntry_tables, setEntry_of_ne hne, hn], fun hu => hu⟩
  · intro r' q t' _ _ hq
    rw [← hq]
    exact follow_setEntry.symm
  · intro t' _ hfar
    have hne : t' ≠ t := by
      rintro rfl
      exact hfar hr ht
    exact setEntry_of_ne hne

end Extends

section Create

variable {r t i u : Nat} {q : List Nat} {e : Entry} {n : Node Entry}
  (hext : Extends R w w₁) (h₁ : Sound w₁ R S) (hu : Fresh w₁ u)
  (hr : R r) (hq : follow w.tables r q = some t) (hn : w.tables t = some n)
  (hi : n.next i = none)
include hext h₁ hu hr hq hn hi

/-- A slot is filled that was empty before the allocation. -/
theorem Extends.create : Extends R w (w₁.link t i u e) := by
  have hlive : (w.tables t).isSome := by rw [hn]; rfl
  have hne : ∀ {t'}, (w.tables t').isSome → t' ≠ u := fun ht' => hu.ne (hext.live ht')
  refine ⟨?_, ?_, ?_, hext.kernel, hext.start⟩
  · intro t' n' hn'
    have hu' : t' ≠ u := hne (by rw [hn']; rfl)
    obtain ⟨n1, hn1, hnext⟩ := hext.node hn'
    by_cases htt : t' = t
    · subst htt
      obtain rfl : n = n' := by rw [hn] at hn'; exact Option.some.inj hn'
      refine ⟨_, link_at (Ne.symm hu') hn1, ?_⟩
      intro i' x hx
      have hii : i' ≠ i := by
        rintro rfl
        rw [hi] at hx
        cases hx
      simpa [update_of_ne hii] using hnext hx
    · exact ⟨n1, by rw [link_of_ne htt hu', hn1], hnext⟩
  · intro r' q' t' hr' ht' hq'
    rcases follow_link_cases h₁ hu (hext.live hlive) hr' hq' with ⟨hq', -⟩ | ⟨hc, -⟩
    · exact hext.before hr' ht' hq'
    · exact absurd hc (hne ht')
  · intro t' ht' hfar
    have htt : t' ≠ t := by
      rintro rfl
      exact hfar hr hq
    rw [link_of_ne htt (hne ht'), hext.foreign ht' hfar]

variable (h : Sound w R S) (hlen : q.length < 3)
include h hlen

/-- Filling such a slot keeps the tables sound, -/
theorem Extends.create_sound : Sound (w₁.link t i u e) R S := by
  have hlive : (w.tables t).isSome := by rw [hn]; rfl
  obtain ⟨n1, hn1, -⟩ := hext.node hn
  refine h₁.link hu hn1 ?_ ?_
  · intro r' q' hr' hq'
    rw [h.path_unique hr' hr (hext.before hr' hlive hq') hq]
    exact hlen
  · -- the way to the shared table did not end at the slot
    rintro r' hr' ⟨q', rest, hq', hf⟩
    have hshared := h.rootShares hr'
    rw [hq', follow_append, hext.before hr' hlive hf, bind_some, follow_cons hn, hi]
      at hshared
    cases hshared

/-- and changes what is seen only where nothing was seen before. -/
theorem Extends.pte_create {r' : Nat} (hr' : R r') (v : VAddr) :
    pte (w₁.link t i u e) r' v = pte w₁ r' v ∨
      (pte (w₁.link t i u e) r' v = .zero ∧ pte w r' v = .zero) := by
  have hlive : (w.tables t).isSome := by rw [hn]; rfl
  have : Decidable (Via w₁.tables t i r' (path v)) := Classical.propDecidable _
  rw [h₁.pte_link hu (hext.live hlive) ?_ hr']
  · by_cases hv : Via w₁.tables t i r' (path v)
    · rw [if_pos hv]
      obtain ⟨q', rest, hp, hf⟩ := hv
      exact .inr ⟨rfl, leaf_of_via hn hi ⟨q', rest, hp, hext.before hr' hlive hf⟩⟩
    · exact .inl (if_neg hv)
  · intro r'' q'' hr'' hq''
    rw [h.path_unique hr'' hr (hext.before hr'' hlive hq'') hq]
    exact hlen

end Create

/-- The creation of one table out of `alloc`, at a path of a directory that meets `P`, keeps the
tables sound and is a `Q`. -/
def Creates (R : Nat → Prop) (S : Nat) (alloc : World → Option (World × Nat × Nat))
    (init : Entry → Entry) (P : Nat → List Nat → Prop) (Q : World → World → Prop) : Prop :=
  ∀ {w : World} {r t i : Nat} {q : List Nat} {n : Node Entry} {w₁ : World} {u phys : Nat}
    (e : Entry), Sound w R S → R r → follow w.tables r q = some t → q.length < 3 →
    P r (q ++ [i]) → w.tables t = some n → n.next i = none → alloc w = some (w₁, u, phys) →
    Sound (w₁.link t i u (init (e.present phys))) R S ∧
      Extends R w (w₁.link t i u (init (e.present phys))) ∧
      (∃ n', (w₁.link t i u (init (e.present phys))).tables t = some n' ∧ n'.next i = some u) ∧
      Q w (w₁.link t i u (init (e.present phys)))

/-- What a creating walk leaves behind, for any relation that the creation of one table is
in. -/
theorem getEntryCreate_spec {alloc : World → Option (World × Nat × Nat)} {init : Entry → Entry}
    {P : Nat → List Nat → Prop} {Q : World → World → Prop} (hrefl : ∀ w, Q w w)
    (htrans : ∀ {a b c}, Q a b → Q b c → Q a c) (hcreate : Creates R S alloc init P Q)
    {stop k : Nat} {w' : World} {t' i' : Nat} {q : List Nat} (h : Sound w R S) (hr : R r)
    (hq : follow w.tables r q = some t)
    (hlen : q.length + k ≤ 3) (hP : ∀ {p}, p <+: q ++ pathTo stop k v → P r p)
    (hwalk : getEntryCreate alloc init stop k w t v = some (w', t', i')) :
    Sound w' R S ∧ Extends R w w' ∧ Q w w' ∧
      follow w'.tables t (pathTo stop k v) = some t' ∧ i' = index stop v := by
  induction k generalizing w t q with
  | zero =>
    cases hwalk
    exact ⟨h, .refl _, hrefl _, rfl, rfl⟩
  | succ k ih =>
    obtain ⟨n, hn, hwalk⟩ := of_bind hwalk
    have hlen' : (q ++ [index (stop + k + 1) v]).length + k ≤ 3 := by
      rw [length_append, List.length_singleton]
      omega
    have hsplit : q ++ pathTo stop (k + 1) v
        = (q ++ [index (stop + k + 1) v]) ++ pathTo stop k v := by
      rw [pathTo, append_assoc, List.singleton_append]
    rw [hsplit] at hP
    cases hu : n.next (index (stop + k + 1) v) with
    | some u =>
      simp only [hu] at hwalk
      obtain ⟨h', hext, hQ, hf, hi⟩ := ih h ((follow_snoc hq hn).trans hu) hlen' hP hwalk
      refine ⟨h', hext, hQ, ?_, hi⟩
      obtain ⟨n', hn', hnext⟩ := hext.node hn
      rw [pathTo, follow_cons hn', hnext hu]
      exact hf
    | none =>
      simp only [hu] at hwalk
      obtain ⟨-, -, hwalk⟩ := of_bind hwalk
      obtain ⟨⟨w₁, u, phys⟩, halloc, hwalk⟩ := of_bind hwalk
      obtain ⟨e, -, hwalk⟩ := of_bind hwalk
      obtain ⟨h2, hext2, ⟨n', hn', hnu⟩, hQ2⟩ :=
        hcreate e h hr hq (by omega) (hP (List.prefix_append ..)) hn hu halloc
      obtain ⟨h', hext, hQ, hf, hi⟩ :=
        ih h2 ((follow_snoc (hext2.follow_eq hq) hn').trans hnu) hlen' hP hwalk
      refine ⟨h', hext2.trans hext, htrans hQ2 hQ, ?_, hi⟩
      obtain ⟨n'', hn'', hnext⟩ := hext.node hn'
      rw [pathTo, follow_cons hn'', hnext hnu]
      exact hf

end Flix.Paging

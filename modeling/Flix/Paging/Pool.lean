import Flix.Paging.Blocks
import Flix.Paging.Ops

/-!
# The pool never runs dry

A mapping creates at most three tables. For each of them the heap maps a block, which
costs the pool one table at most, and only if the block is the first of its region. So a
full pool is enough for every mapping.

Filling it again is a loop that draws on what it fills. But of two hundred blocks in a
row only one is the first of a region, so that the loop goes round once more than there
are blocks missing, at most.
-/

namespace Flix.Paging

open Function Radix

variable {w w₁ w' : World} {P : Nat → List Bool → Prop} {R : Nat → Prop} {S N : Nat}

/-- There is room for `k` more blocks: addresses below block `N`, and frames that an entry can
name. What is asked of the frames otherwise is `P`. -/
structure Stock (P : Nat → List Bool → Prop) (R : Nat → Prop) (S N k : Nat) (w : World) :
    Prop where
  ready : Ready R S N w
  limit : N ≤ 2 ^ 16
  blocks : w.heap.map.length + k ≤ N
  frames : Supply (fun f l => Named f l ∧ P f l) (2 * k + 1) w.frames

variable {k n c r : Nat} {v : VAddr}

theorem Stock.mono {k' : Nat} (h : Stock P R S N k w) (hk : k' ≤ k) : Stock P R S N k' w :=
  ⟨h.ready, h.limit, by have := h.blocks; omega, h.frames.mono (by omega)⟩

theorem Took.pool_length {u phys : Nat} (ht : Took R S w w₁ u phys) :
    w.heap.pool.length ≤ w₁.heap.pool.length + 1 ∧ w₁.heap.pool.length ≤ w.heap.pool.length := by
  rw [ht.pool]
  split
  · omega
  · rw [List.length_tail]
    omega

/-- One block. -/
theorem Stock.allocBlock (h : Stock P R S N (k + 1) w)
    (hpool : Prepared w w.nextBlock ∨ w.heap.pool ≠ []) :
    ∃ w₁ u phys, allocBlock w = some (w₁, u, phys) ∧ Took R S w w₁ u phys ∧ u < 2 ^ 16 ∧
      Stock P R S N k w₁ := by
  have hblocks := h.blocks
  have hle := (nextBlock_spec w).1
  have hnext : w.nextBlock < N := by omega
  have hroom := hnext.trans_le h.limit
  obtain ⟨w₁, u, phys, ha⟩ := h.ready.allocBlock_total h.limit hnext
    ((h.frames.mono (by omega)).imp fun _ _ hf => hf.1) hpool
  obtain ⟨rfl, ht⟩ := allocBlock_took h.ready.sound h.ready.idle hroom ha
  refine ⟨w₁, _, phys, ha, ht, hroom, ht.ready h.ready h.limit hroom, h.limit, ?_, ?_⟩
  · rw [ht.length]
    omega
  · exact ht.frames (h.frames.mono (by omega))

/-! ## Filling the pool -/

/-- What a refill comes to. -/
structure Full (R : Nat → Prop) (S N : Nat) (w' : World) : Prop where
  ready : Ready R S N w'
  pool : w'.heap.pool.length = 16

theorem refillRounds_full (h : w.heap.pool.length = 16) : refillRounds n w = some w := by
  have hnot : ¬ w.heap.pool.length < 16 := by omega
  cases n with
  | zero => rw [refillRounds, if_neg hnot]
  | succ n => rw [refillRounds, if_neg hnot]

theorem Stock.round (h : Stock P R S N (k + 1) w)
    (hpool : Prepared w w.nextBlock ∨ w.heap.pool ≠ []) (hlt : w.heap.pool.length < 16) :
    ∃ w2, refillRounds (n + 1) w = refillRounds n w2 ∧ Stock P R S N k w2 ∧
      w2.heap.map.length ≤ w.heap.map.length + 1 ∧ (∀ {b}, Prepared w b → Prepared w2 b) ∧
      ((w2.heap.pool.length = w.heap.pool.length + 1) ∨
        (w2.heap.pool.length = w.heap.pool.length ∧ ¬ Prepared w w.heap.map.length ∧
          w2.heap.map.length = w.heap.map.length + 1 ∧ Prepared w2 w.heap.map.length)) := by
  obtain ⟨w₁, u, phys, ha, ht, hu, hst⟩ := h.allocBlock hpool
  have hbelow := ht.below
  refine ⟨{ w₁ with heap := { w₁.heap with pool := (u, phys) :: w₁.heap.pool } }, ?_,
    { hst with ready := hst.ready.push ht.alloc.block }, ?_,
    fun hb => ht.alloc.ext.prepared hb, ?_⟩
  · rw [refillRounds, if_pos hlt, ha]
    rfl
  · rw [ht.length]
    omega
  · by_cases hcost : u < 16 ∨ Prepared w u
    · refine .inl ?_
      rw [length_cons, ht.pool, if_pos hcost]
    · -- the first block of a region is beyond the others
      obtain ⟨hdyn, hprep⟩ := not_or.mp hcost
      have hlast : u = w.heap.map.length := by
        refine le_antisymm hbelow (not_lt.mp fun hc => hprep (h.ready.prepared hc))
      refine .inr ⟨?_, hlast ▸ hprep, ?_, ?_⟩
      · obtain ⟨x, rest, hcons⟩ := List.exists_cons_of_ne_nil
          ((ht.stocked.resolve_left hdyn).resolve_left hprep)
        rw [ht.pool, if_neg hcost, hcons]
        rfl
      · rw [ht.length]
        omega
      · rw [← hlast]
        exact ht.prepared (by omega)

/-- Within the regions there are each round adds a block. -/
theorem refillRounds_prepared {m : Nat} (h : Stock P R S N (c + m) w)
    (hm : w.heap.pool.length + m = 16) (hn : m ≤ n)
    (hprep : ∀ b < w.heap.map.length + m, Prepared w b) :
    ∃ w', refillRounds n w = some w' ∧ Stock P R S N c w' ∧ w'.heap.pool.length = 16 := by
  induction m generalizing w n with
  | zero => exact ⟨w, refillRounds_full hm, h, hm⟩
  | succ m ih =>
    obtain ⟨n, rfl⟩ : ∃ n', n = n' + 1 := ⟨n - 1, by omega⟩
    have hle := (nextBlock_spec w).1
    obtain ⟨w2, hround, hst, hlen, hkeep, hgain⟩ :=
      h.round (.inl (hprep _ (by omega))) (by omega)
    rcases hgain with hgain | ⟨-, hnot, -⟩
    · rw [hround]
      refine ih hst (by omega) (by omega) fun b hb => ?_
      exact hkeep (hprep b (by omega))
    · exact absurd (hprep _ (by omega)) hnot

/-- The loop ends, one round late at most, and the pool is full. -/
theorem refillRounds_total {m : Nat} (h : Stock P R S N (c + 1 + m) w) (hpool : w.heap.pool ≠ [])
    (hm : w.heap.pool.length + m = 16) (hn : m + 1 ≤ n) :
    ∃ w', refillRounds n w = some w' ∧ Stock P R S N c w' ∧ w'.heap.pool.length = 16 := by
  induction m generalizing w n with
  | zero => exact ⟨w, refillRounds_full hm, h.mono (by omega), hm⟩
  | succ m ih =>
    obtain ⟨n, rfl⟩ : ∃ n', n = n' + 1 := ⟨n - 1, by omega⟩
    obtain ⟨w2, hround, hst, hlen, hkeep, hgain⟩ := h.round (.inr hpool) (by omega)
    rw [hround]
    rcases hgain with hgain | ⟨hgain, hnot, hlen2, hprep⟩
    · exact ih hst (List.ne_nil_of_length_pos (by omega)) (by omega) (by omega)
    · -- a new region has begun, and it is long enough for the rest
      have hpos : 0 < w.heap.pool.length := List.length_pos_of_ne_nil hpool
      have hst : Stock P R S N (c + 1 + m) w2 := hst
      refine refillRounds_prepared (m := m + 1) (hst.mono (by omega)) (by omega) (by omega)
        fun b hb => ?_
      rcases Nat.lt_or_ge b w.heap.map.length with hlt | hge
      · exact hkeep (h.ready.prepared hlt)
      · refine prepared_region hprep ?_
        have hstart : w.heap.map.length % 256 = 0 := by
          by_contra hc
          refine hnot (prepared_region (h.ready.prepared (b := w.heap.map.length - 1) ?_) ?_)
          · omega
          · omega
        omega

/-- `p` blocks can be taken and the pool be filled afterwards: it has as many tables, or all the
blocks are in the first region, whose table is there. -/
def Enough (p : Nat) (w : World) : Prop := p ≤ w.heap.pool.length ∨ w.heap.map.length + p ≤ 240

theorem Enough.next {p : Nat} (hp : Enough (p + 1) w) (h : Ready R S N w) :
    Prepared w w.nextBlock ∨ w.heap.pool ≠ [] := by
  have hle := (nextBlock_spec w).1
  rcases hp with hp | hp
  · exact .inr (List.ne_nil_of_length_pos (by omega))
  · exact .inl (h.prepared_of_lt (by omega))

theorem Enough.took {p u phys : Nat} (hp : Enough (p + 1) w) (ht : Took R S w w₁ u phys) :
    Enough p w₁ := by
  have hpool := ht.pool_length
  have hlength := ht.length
  have hbelow := ht.below
  unfold Enough at hp ⊢
  omega

theorem refillRounds_enough {m : Nat} (h : Stock P R S N (c + 1 + m) w) (hpool : Enough 1 w)
    (hm : w.heap.pool.length + m = 16) (hn : m + 1 ≤ n) :
    ∃ w', refillRounds n w = some w' ∧ Stock P R S N c w' ∧ w'.heap.pool.length = 16 := by
  rcases hpool with hpool | hpool
  · exact refillRounds_total h (List.ne_nil_of_length_pos (by omega)) hm hn
  · exact refillRounds_prepared (h.mono (by omega)) hm (by omega) fun b hb =>
      h.ready.prepared_of_lt (by omega)

/-! ## Walks -/

/-- A walk finds its tables, one block for each level at most. -/
theorem getEntryCreate_total (init : Entry → Entry) (stop : Nat) {p t : Nat} {q : List Nat}
    (h : Stock P R S N (c + k) w) (hr : R r) (hq : follow w.tables r q = some t)
    (hlen : q.length + k ≤ 3) (hpool : Enough (p + k) w) :
    ∃ w' t', getEntryCreate allocBlock init stop k w t v = some (w', t', index stop v) ∧
      Stock P R S N c w' ∧ Enough p w' ∧ w.heap.pool.length ≤ w'.heap.pool.length + k ∧
      w'.heap.pool.length ≤ w.heap.pool.length := by
  induction k generalizing w t q with
  | zero => exact ⟨w, t, rfl, h, hpool, le_rfl, le_rfl⟩
  | succ k ih =>
    obtain ⟨n, hn⟩ := isSome_iff_exists.mp (h.ready.sound.live hr hq)
    have hlen' : (q ++ [index (stop + k + 1) v]).length + k ≤ 3 := by
      rw [length_append, List.length_singleton]
      omega
    rw [getEntryCreate, hn]
    simp only [bind_eq_bind, bind_some]
    cases hu : n.next (index (stop + k + 1) v) with
    | some u =>
      obtain ⟨w', t', hwalk, hst, hp', hlow, hhigh⟩ := ih (h.mono (by omega))
        ((follow_snoc hq hn).trans hu) hlen' (hpool.imp (by omega) (by omega))
      exact ⟨w', t', hwalk, hst, hp', by omega, hhigh⟩
    | none =>
      have habsent := h.ready.sound.absent hr hq hn (by omega) hu
      obtain ⟨w₁, u, phys, ha, ht, hu1, hst⟩ := Stock.allocBlock h (hpool.next h.ready)
      obtain ⟨n1, hn1, -⟩ := ht.alloc.ext.node hn
      have hne : u ≠ t := (ht.alloc.block.ne (by rw [hn1]; rfl)).symm
      have hT : setNext (update w₁.tables u (some (Node.blank Entry.zero))) t
          (index (stop + k + 1) v) u t
            = some { n1 with next := update n1.next (index (stop + k + 1) v) (some u) } :=
        setNext_self (by rw [update_of_ne hne.symm, hn1])
      simp only [assert_pos habsent, ha, bind_some, hT]
      -- what is left is a walk from the new table
      obtain ⟨h2, hext2, ⟨n2, hn2, hnext2⟩, -⟩ := allocBlock_creates init
        (n1.entries (index (stop + k + 1) v)) h.ready.sound hr hq (by omega) trivial hn hu ha
      have hready : Ready R S N (w₁.link t (index (stop + k + 1) v) u
          (init ((n1.entries (index (stop + k + 1) v)).present phys))) := by
        refine hst.ready.link ht.alloc.block (by rw [hn1]; rfl) h2 fun v hr' => ?_
        rcases ht.alloc.ext.pte_create hst.ready.sound
          ht.alloc.block hr hq hn hu h.ready.sound (by omega) hr' v with hv | ⟨hv, -⟩
        · exact .inl hv
        · exact .inr hv
      have hleft : Enough (p + k) w₁ := hpool.took ht
      have hlength := ht.pool_length
      obtain ⟨w', t', hwalk, hst', hp', hlow, hhigh⟩ := ih
        { hst with ready := hready }
        ((follow_snoc (hext2.follow_eq hq) hn2).trans hnext2) hlen' hleft
      have hlow : w₁.heap.pool.length ≤ w'.heap.pool.length + k := hlow
      exact ⟨w', t', hwalk, hst', hp', by omega, hhigh.trans hlength.2⟩

/-! ## Mappings -/

/-- The address is on no page of a block below `N`. -/
def Apart (N : Nat) (w : World) (r : Nat) (v : VAddr) : Prop :=
  ∀ b n, b < N → n < 2 → slotOf r v ≠ slotOf w.kernel.root (heapPage b n)

theorem Apart.not_heapPage (h : Apart N w r v) (hk : w'.kernel = w.kernel)
    (hlen : w'.heap.map.length ≤ N) : ¬ HeapPage w' r v := by
  rintro ⟨b, n, hb, hn, -, hs⟩
  rw [hk] at hs
  exact h b n (hb.trans_le hlen) hn hs

theorem Ready.setEntry {t : Nat} {e : Entry} (h : Ready R S N w) (hr : R r)
    (ht : follow w.tables r (path v) = some t) (hv : Apart N w r v) :
    Ready R S N (w.setEntry t (index 0 v) e) := by
  refine ⟨h.sound.setEntry hr ht _ _, h.idle, prepared_setEntry.mpr h.first,
    fun hb => prepared_setEntry.mpr (h.prepared hb), fun {b n} hb hbN hn hmap => ?_⟩
  have hview := h.sound.pte_setEntry hr h.sound.kernel ht e (heapPage b n)
  rw [if_neg fun hs => hv b n hbN hn hs.symm] at hview
  exact (congrArg Entry.p hview).trans (h.vacant hb hbN hn hmap)

section MapPageTo

variable {c r attr : Nat} {v : VAddr} (paddr : Nat)
  (h : Stock P R S N (c + 24 - w.heap.pool.length) w)
  (hpool : (4 ≤ w.heap.pool.length ∨ w.heap.map.length ≤ 236) ∧ w.heap.pool.length ≤ 16)
  (hr : R r) (ha : Accepts v attr) (hp : (pte w r v).p = false) (hv : Apart N w r v)
include h hpool hr ha hp hv

/-- A page can be mapped, and the pool is full afterwards. -/
theorem mapPageTo_total : ∃ w', mapPageTo w r v paddr attr = some w' ∧ Stock P R S N c w' ∧
    w'.heap.pool.length = 16 := by
  obtain ⟨w₁, t, hwalk, hst, hleft, hlow, hhigh⟩ := getEntryCreate_total
    (setAttributes 0x3) 0 (k := 3) (c := c + 21 - w.heap.pool.length) (p := 1)
    (q := []) (h.mono (by omega)) hr rfl le_rfl (hpool.1.imp id (by omega))
  obtain ⟨h1, hext, hgrown, hf, -⟩ := getEntryCreate_spec (P := fun _ _ => True) Grown.refl Grown.trans
    (allocBlock_creates _) h.ready.sound hr (q := []) rfl le_rfl (fun _ => trivial) hwalk
  have hf' : follow w₁.tables r (path v) = some t := hf
  have hblocks := hst.blocks
  -- what the heap has done on the way is not about this page
  have hsame : pte w₁ r v = pte w r v :=
    hgrown.steps.pte_eq hr (hv.not_heapPage hext.kernel (by omega))
  have hraw := mapPageToRaw_eq paddr ha hwalk (h1.entry_eq hr hf') (by rw [hsame]; exact hp)
  have hv1 : Apart N w₁ r v := by
    intro b n hb hn
    rw [hext.kernel]
    exact hv b n hb hn
  have hready := hst.ready.setEntry (e := setAttributes attr ((pte w₁ r v).present paddr)) hr hf' hv1
  obtain ⟨m, hm⟩ : ∃ m, w₁.heap.pool.length + m = 16 := ⟨16 - w₁.heap.pool.length, by omega⟩
  have hst' : Stock P R S N (c + 1 + m)
      (w₁.setEntry t (index 0 v) (setAttributes attr ((pte w₁ r v).present paddr))) :=
    Stock.mono { hst with ready := hready } (by omega)
  obtain ⟨w', hrefill, hfull⟩ := refillRounds_enough (n := 64) hst' hleft hm (by omega)
  refine ⟨w', ?_, hfull⟩
  rw [mapPageTo, hraw, bind_eq_bind, bind_some, refillPool,
    if_neg (by rw [hready.idle]; exact Bool.noConfusion), hrefill]

end MapPageTo

theorem mapPage_total {attr : Nat} (h : Stock P R S N (c + 25 - w.heap.pool.length) w)
    (hpool : (4 ≤ w.heap.pool.length ∨ w.heap.map.length ≤ 236) ∧ w.heap.pool.length ≤ 16)
    (hr : R r) (ha : Accepts v attr) (hp : (pte w r v).p = false) (hv : Apart N w r v) : ∃ w' a, mapPage w r v attr = some (w', a) ∧ Stock P R S N c w' ∧
      w'.heap.pool.length = 16 ∧ (attr.testBit 3 = true ∨ ∃ f l, P f l ∧ a = f * PAGE_SIZE) := by
  rw [mapPage, mapPageBy]
  split
  · rename_i hdefer
    obtain ⟨w', hm, hfull⟩ := mapPageTo_total (c := c) INVALID_PHYS (h.mono (by omega)) hpool hr
      ha hp hv
    rw [hm]
    exact ⟨w', _, rfl, hfull.1, hfull.2, .inl hdefer⟩
  · obtain ⟨frames, f, hfree, ⟨hf, hgood⟩, hleft⟩ :=
      Supply.mono (j := 2 * (c + 24 - w.heap.pool.length) + 1 + 1) h.frames (by omega)
    have hf : f ≠ INVALID_PAGE := hf
    have hblocks := h.blocks
    have hready : Ready R S N { w with frames := frames } :=
      ⟨h.ready.sound.withFrames frames, h.ready.idle, h.ready.first, h.ready.prepared,
        h.ready.vacant⟩
    obtain ⟨w', hm, hfull⟩ := mapPageTo_total
      (f * PAGE_SIZE) ⟨hready, h.limit,
        by show w.heap.map.length + (c + 24 - w.heap.pool.length) ≤ N; omega, hleft⟩
      hpool hr ha hp hv
    simp only [hfree, bind_eq_bind, bind_some, assert_pos hf, hm]
    exact ⟨w', _, rfl, hfull.1, hfull.2, .inr ⟨f, _, hgood, rfl⟩⟩

/-! ## Runs -/

namespace Pool

open Runs

inductive Act where
  | mapPageTo (r : Nat) (v : VAddr) (paddr attr : Nat)
  | mapPage (r : Nat) (v : VAddr) (attr : Nat)

def Act.root : Act → Nat
  | .mapPageTo r _ _ _ | .mapPage r _ _ => r

def Act.addr : Act → VAddr
  | .mapPageTo _ v _ _ | .mapPage _ v _ => v

def Act.attr : Act → Nat
  | .mapPageTo _ _ _ attr | .mapPage _ _ attr => attr

def step (w : World) : Act → Option World
  | .mapPageTo r v paddr attr => Paging.mapPageTo w r v paddr attr
  | .mapPage r v attr => (Paging.mapPage w r v attr).map Prod.fst

/-- Blocks below this one are below `0xffffffffe8000000`. -/
def blockLimit : Nat := 16384

/-- Canonical addresses that are not among the page heap's own. -/
def Outside (v : VAddr) : Prop :=
  Canonical v ∧ ¬ (0xffffffffe0000000 ≤ v.toNat ∧ v.toNat < 0xffffffffe8000000)

/-- A call that maps what is not mapped, with attributes that are taken there, while the page heap
stays in its place and there is memory that an entry can name. -/
structure Guard (R : Nat → Prop) (w : World) (a : Act) : Prop where
  root : R a.root
  addr : Outside a.addr
  accepts : Accepts a.addr a.attr
  unmapped : (pte w a.root a.addr).p = false
  blocks : w.heap.map.length + 9 ≤ blockLimit
  frames : w.frames.length + 304 < INVALID_PAGE

theorem Outside.apart {v : VAddr} (h : Outside v) (w : World) (r : Nat) : Apart blockLimit w r v := by
  intro b n hb hn hs
  have hb' : b < 16384 := hb
  have hpage := path_eq_iff.mp (slotOf_eq_iff.mp hs).1
  rw [pageOf, pageOf, heapPage_toNat (by omega) hn, PAGE_SIZE] at hpage
  obtain ⟨hcanonical, hnot⟩ := h
  simp only [Canonical] at hcanonical
  omega

theorem Guard.stock {w : World} {a : Act} (hg : Guard R w a) (h : Full R S blockLimit w) :
    Stock (fun _ l => l.length < INVALID_PAGE) R S blockLimit 9 w :=
  ⟨h.ready, by decide, hg.blocks, supply_of_length le_rfl hg.frames⟩

/-- One call fills the pool, also the first one. -/
theorem step_fills {w : World} {a : Act} (h : Stock P R S blockLimit (25 - w.heap.pool.length) w)
    (hpool : (4 ≤ w.heap.pool.length ∨ w.heap.map.length ≤ 236) ∧ w.heap.pool.length ≤ 16)
    (hg : Guard R w a) : ∃ w', step w a = some w' ∧ Full R S blockLimit w' := by
  have hapart := hg.addr.apart w a.root
  cases a with
  | mapPageTo r v paddr attr =>
    obtain ⟨w', hm, hst, hpool⟩ := mapPageTo_total (c := 0) paddr
      (h.mono (by omega)) hpool hg.root hg.accepts hg.unmapped hapart
    exact ⟨w', hm, hst.ready, hpool⟩
  | mapPage r v attr =>
    obtain ⟨w', a, hm, hst, hpool, -⟩ := mapPage_total (c := 0)
      (h.mono (by omega)) hpool hg.root hg.accepts hg.unmapped hapart
    exact ⟨w', congrArg (Option.map Prod.fst) hm, hst.ready, hpool⟩

theorem step_total {w : World} {a : Act} (h : Full R S blockLimit w) (hg : Guard R w a) :
    ∃ w', step w a = some w' ∧ Full R S blockLimit w' := by
  have hpool := h.pool
  exact step_fills ((hg.stock h).mono (by omega)) (by omega) hg

/-- **The pool never runs dry, and filling it ends.** From a full pool on, every call returns, with
sixteen blocks in the pool. -/
theorem pool_never_runs_dry {w₀ w : World} (h₀ : Full R S blockLimit w₀)
    (h : Reach step (Guard R) w₀ w) :
    w.heap.pool.length = 16 ∧
      ∀ a, Guard R w a → ∃ w', step w a = some w' ∧ w'.heap.pool.length = 16 := by
  have hfull : Full R S blockLimit w := by
    refine h.invariant h₀ fun w a w' hI hg hs => ?_
    obtain ⟨x, hx, hfull⟩ := step_total hI hg
    rw [hs] at hx
    cases hx
    exact hfull
  refine ⟨hfull.pool, fun a hg => ?_⟩
  obtain ⟨w', hs, hfull'⟩ := step_total hfull hg
  exact ⟨w', hs, hfull'.pool⟩

theorem smallKernel_full : Full (· = 0) 2 blockLimit smallKernel := by
  have hprep : Prepared smallKernel 0 := by decide
  refine ⟨⟨smallKernel_sound, rfl, hprep, fun {b} hb => prepared_region hprep ?_,
    fun {b n} hb hbN hn hmap => ?_⟩, rfl⟩
  · have hb' : b < 20 := hb
    omega
  · by_contra hc
    obtain ⟨hpath, hindex, -⟩ := smallKernel_pte _ ((Bool.not_eq_false _).mp hc)
    have hb' : b < 16384 := hbN
    have hpath' := path_heapPage (b := b) (by omega) hn
    rw [hpath, region] at hpath'
    simp only [List.cons.injEq] at hpath'
    rw [index, heapPage_toNat (by omega) hn] at hindex
    have hlt : b < 20 := by omega
    refine hmap ?_
    show (List.replicate 20 true)[b]? = some true
    rw [List.getElem?_replicate, if_pos hlt]

theorem smallKernel_stock : Stock (fun _ _ => True) (· = 0) 2 blockLimit 102 smallKernel :=
  ⟨smallKernel_full.ready, by decide, by decide,
    (supply_of_length le_rfl (by decide)).imp fun _ _ h => ⟨h.1, trivial⟩⟩

theorem pool_never_runs_dry_smallKernel :
    ∃ w', step smallKernel (.mapPage 0 0x400000 7) = some w' ∧ w'.heap.pool.length = 16 := by
  refine (pool_never_runs_dry smallKernel_full .start).2 _ ⟨rfl, ?_, ?_, rfl, ?_, ?_⟩
  · exact ⟨.inl (by decide), by decide⟩
  · exact ⟨by decide, by decide, by decide⟩
  · decide
  · decide

/-- **A page in the heap's own place** stops the heap: when it comes to this block, the page is
mapped already. -/
theorem mapped_heap_page_stops_heap :
    Full (· = 0) 2 blockLimit smallKernel ∧ Canonical 0xffffffffe0028000 ∧
    ∃ w₁, Paging.mapPageTo smallKernel 0 0xffffffffe0028000 0x1000 5 = some w₁ ∧
      w₁.heap.pool.length = 16 ∧ (pte w₁ 0 0x400000).p = false ∧ Accepts 0x400000 7 ∧
      Paging.mapPageTo w₁ 0 0x400000 0x2000 7 = none := by
  refine ⟨smallKernel_full, .inr (by decide), ?_⟩
  have hrun : (Paging.mapPageTo smallKernel 0 0xffffffffe0028000 0x1000 5).map (fun w₁ =>
      (w₁.heap.pool.length, (pte w₁ 0 0x400000).p,
        (Paging.mapPageTo w₁ 0 0x400000 0x2000 7).isNone)) = some (16, false, true) := by
    decide +kernel
  obtain ⟨w₁, hw₁, hfacts⟩ := map_eq_some_iff.mp hrun
  simp only [Prod.mk.injEq, Option.isNone_iff_eq_none] at hfacts
  obtain ⟨hpool, hp, hnone⟩ := hfacts
  exact ⟨w₁, hw₁, hpool, hp, ⟨by decide, by decide, by decide⟩, hnone⟩

end Pool

end Flix.Paging

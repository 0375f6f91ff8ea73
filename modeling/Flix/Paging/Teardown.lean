import Flix.Paging.Blocks
import Flix.Paging.UserPages

/-!
# Taking a directory down

`release` frees the block of every table of a directory that it gets to. Nobody uses
the directory any more, so that its tables are not among those the others lead to,
and what the others see changes only in the pages of the blocks that are freed.

The calls that give frames back are followed one by one: each is for a frame that is
in use and that no entry of a directory in use refers to. This does not depend on the
teardown coming to its end. That it does come to its end, without a failed assertion,
needs more: every block has to be mapped (`Backed`).
-/

namespace Flix.Paging

open Function Radix Traced

variable {w w₁ w₂ w' : World} {R : Nat → Prop} {S : Nat} {tot : Prop}

/-- A frame that is given back is in use, and not mapped in a directory in use. -/
def Safe (R : Nat → Prop) : Call → Prop
  | .setPageFree w f => w.frames.length ≤ 2 ^ 40 →
      Used w.frames f ∧ ∀ r v, R r → (pte w r v).p = true → (pte w r v).base ≠ f
  | .kfree _ => True

variable {f r b : Nat}

theorem setPageFree_length {frames frames' : List Bool}
    (h : setPageFree frames f = some frames') : frames'.length = frames.length := by
  obtain ⟨-, h⟩ := of_assert h
  obtain ⟨-, h⟩ := of_assert h
  cases h
  exact List.length_set

theorem setPageFree_isSome {frames : List Bool} (h : Used frames f) :
    (setPageFree frames f).isSome := by
  unfold setPageFree
  rw [assert_pos h.lt, assert_pos (show _ = _ from h)]
  rfl

/-- `setPageFree`, of a frame that nobody holds. -/
theorem World.setPageFree_spec (ho : Owned R w) (hf : w.frames.length ≤ 2 ^ 40 →
      Used w.frames f ∧ ∀ r v, R r → (pte w r v).p = true → (pte w r v).base ≠ f)
    (htot : tot → w.frames.length ≤ 2 ^ 40) :
    Spec tot (Safe R) (fun w' => ∃ frames, w' = { w with frames := frames } ∧
      frames.length = w.frames.length ∧ (∀ g, Used frames g ↔ Used w.frames g ∧ g ≠ f) ∧
      Owned R w') (w.setPageFree f) := by
  refine (Spec.note (show Safe R (.setPageFree w f) from hf)).bind fun _ _ => ?_
  refine (Spec.lift id ?_).bind ?_
  · exact fun ht => setPageFree_isSome (hf (htot ht)).1
  · intro frames _ hfree
    have hlen := setPageFree_length hfree
    refine .pure ⟨frames, rfl, hlen, (Paging.setPageFree_spec hfree).2, ho.setPageFree hfree ?_ hlen⟩
    rintro hb (_ | s) hx
    · exact hx
    · obtain ⟨-, r, v, hr, -, hp, hbase⟩ := hx
      exact (hf hb).2 r v hr hp hbase

theorem unmapPage_isSome (h : Sound w R S) {v : VAddr} (hr : R r)
    (hp : (pte w r v).p = true) : (unmapPage w r v).isSome := by
  rw [unmapPage, h.getPage_eq hr]
  cases hf : follow w.tables r (path v) with
  | none =>
    rw [pte_of_none hf] at hp
    cases hp
  | some t =>
    simp only [map_some, bind_eq_bind, bind_some, h.entry_eq hr hf]
    rw [assert_pos hp]
    rfl

/-- What has been taken down: the tables in the blocks `B`, and the pages `V` of the kernel
directory with their frames. -/
structure Torn (R : Nat → Prop) (B : Nat → Prop) (V : VAddr → Prop) (w w' : World) : Prop where
  unreached : ∀ {b}, B b → Unreached R w b
  view : ∀ {r} (v : VAddr), R r → pte w' r v = pte w r v ∨ ((pte w' r v).p = false ∧
    ∃ y, V y ∧ slotOf r v = slotOf w.kernel.root y)
  frames : ∀ {f}, Used w.frames f → Used w'.frames f ∨ ∃ y, V y ∧
    (pte w w.kernel.root y).p = true ∧ (pte w w.kernel.root y).base = f
  framesLength : w'.frames.length = w.frames.length
  map : ∀ b : Nat, w'.heap.map[b]? = some true ↔ w.heap.map[b]? = some true ∧ ¬ B b
  mapLength : w'.heap.map.length = w.heap.map.length
  pool : w'.heap.pool = w.heap.pool
  allocating : w'.heap.allocating = w.heap.allocating
  stackHeap : w'.stackHeap = w.stackHeap
  kernel : w'.kernel = w.kernel
  start : w'.pageHeapStart = w.pageHeapStart
  follow_eq : ∀ {r q}, R r → follow w'.tables r q = follow w.tables r q
  foreign : ∀ {t}, Unreached R w t → ¬ B t → w'.tables t = w.tables t
  gone : ∀ {t}, B t → w'.tables t = none
  noTable : ∀ {t}, w.tables t = none → w'.tables t = none
  unmapped : ∀ {y}, V y → (pte w' w'.kernel.root y).p = false

namespace Torn

variable {B B' : Nat → Prop} {V V' : VAddr → Prop}

theorem refl (w : World) : Torn R (fun _ => False) (fun _ => False) w w where
  unreached := fun h => h.elim
  view := fun _ _ => .inl rfl
  frames := .inl
  framesLength := rfl
  map := fun _ => (and_iff_left id).symm
  mapLength := rfl
  pool := rfl
  allocating := rfl
  stackHeap := rfl
  kernel := rfl
  start := rfl
  follow_eq := fun _ => rfl
  foreign := fun _ _ => rfl
  gone := fun h => h.elim
  noTable := id
  unmapped := fun h => h.elim

theorem congr (h : Torn R B V w w') (hB : ∀ b, B' b ↔ B b) (hV : ∀ v, V' v ↔ V v) :
    Torn R B' V' w w' := by
  obtain rfl : B' = B := funext fun b => propext (hB b)
  obtain rfl : V' = V := funext fun v => propext (hV v)
  exact h

theorem unreached_iff (h : Torn R B V w w') {t : Nat} : Unreached R w' t ↔ Unreached R w t := by
  constructor
  · intro ht r q hr hq
    exact ht hr ((h.follow_eq hr).trans hq)
  · intro ht r q hr hq
    exact ht hr ((h.follow_eq hr).symm.trans hq)

theorem pte_of_p (h : Torn R B V w w') {r : Nat} {v : VAddr} (hr : R r)
    (hp : (pte w' r v).p = true) : pte w' r v = pte w r v := by
  rcases h.view v hr with hv | ⟨hv, -⟩
  · exact hv
  · rw [hv] at hp
    cases hp

theorem fresh (h : Torn R B V w w') {x : Nat} (hx : Fresh w x) (hB : ¬ B x) : Fresh w' x :=
  ⟨h.noTable hx.noTable, (h.map x).mpr ⟨hx.used, hB⟩, by rw [h.pool]; exact hx.noPool⟩

/-- One teardown after the other. -/
theorem trans (h : Torn R B V w w₁) (h' : Torn R B' V' w₁ w₂) (hk : R w.kernel.root) :
    Torn R (fun b => B b ∨ B' b) (fun v => V v ∨ V' v) w w₂ where
  unreached := by
    rintro b (hb | hb)
    · exact h.unreached hb
    · exact h.unreached_iff.mp (h'.unreached hb)
  view := by
    intro r v hr
    rcases h'.view v hr with hv | ⟨hv, y, hy, hs⟩
    · rw [hv]
      rcases h.view v hr with hv1 | ⟨hv1, y, hy, hs⟩
      · exact .inl hv1
      · exact .inr ⟨hv1, y, .inl hy, hs⟩
    · rw [h.kernel] at hs
      exact .inr ⟨hv, y, .inr hy, hs⟩
  frames := by
    intro f hf
    rcases h.frames hf with hf | ⟨y, hy, hp, hbase⟩
    · rcases h'.frames hf with hf | ⟨y, hy, hp, hbase⟩
      · exact .inl hf
      · rw [h.kernel] at hp hbase
        have hpte := h.pte_of_p hk hp
        rw [hpte] at hp hbase
        exact .inr ⟨y, .inr hy, hp, hbase⟩
    · exact .inr ⟨y, .inl hy, hp, hbase⟩
  framesLength := h'.framesLength.trans h.framesLength
  map := by
    intro b
    rw [h'.map, h.map, not_or, and_assoc]
  mapLength := h'.mapLength.trans h.mapLength
  pool := h'.pool.trans h.pool
  allocating := h'.allocating.trans h.allocating
  stackHeap := h'.stackHeap.trans h.stackHeap
  kernel := h'.kernel.trans h.kernel
  start := h'.start.trans h.start
  follow_eq := fun hr => (h'.follow_eq hr).trans (h.follow_eq hr)
  foreign := by
    intro t ht hb
    have hb := not_or.mp hb
    exact (h'.foreign (h.unreached_iff.mpr ht) hb.2).trans (h.foreign ht hb.1)
  gone := by
    rintro t (ht | ht)
    · exact h'.noTable (h.gone ht)
    · exact h'.gone ht
  noTable := fun ht => h'.noTable (h.noTable ht)
  unmapped := by
    rintro y (hy | hy)
    · have hy1 := h.unmapped hy
      rw [h'.kernel]
      rcases h'.view y (h.kernel ▸ hk) with hv | ⟨hv, -⟩
      · rw [hv]
        exact hy1
      · exact hv
    · exact h'.unmapped hy

end Torn

/-- Unmapping and freeing. After the entry is cleared nobody refers to the frame. -/
theorem unmapAndFree_spec (h : Sound w R S) (ho : Owned R w) {v : VAddr}
    (htot : tot → w.frames.length ≤ 2 ^ 40 ∧ (pte w w.kernel.root v).p = true) :
    Spec tot (Safe R) (fun w' => Sound w' R S ∧ Owned R w' ∧ Torn R (fun _ => False) (· = v) w w')
      (unmapAndFree w v) := by
  refine (Spec.lift (Q := fun x => unmapPage w w.kernel.root v = some x) id ?_).bind ?_
  · exact fun ht => unmapPage_isSome h h.kernel (htot ht).2
  rintro ⟨w₁, a⟩ _ hu
  obtain ⟨hp, rfl, hwrite, h1, hext⟩ := unmapPage_spec h h.kernel hu
  have ho1 : Owned R w₁ := ho.clear hwrite rfl
  have ha : (pte w w.kernel.root v).base * PAGE_SIZE / PAGE_SIZE = (pte w w.kernel.root v).base :=
    Nat.mul_div_cancel _ (by decide)
  show Spec tot (Safe R) _ (w₁.setPageFree _)
  rw [ha]
  refine (w₁.setPageFree_spec ho1 ?_ ?_).mono ?_
  · intro hb
    rw [hwrite.frames] at hb ⊢
    have hold : Holds R (fun _ => False) (fun _ => False) w (some (slotOf w.kernel.root v))
        (pte w w.kernel.root v).base := ⟨id, _, v, h.kernel, rfl, hp, rfl⟩
    refine ⟨(ho hb).marked hold, fun r v' hr hp' hbase => ?_⟩
    have hnew : Holds R (fun _ => False) (fun _ => False) w₁ (some (slotOf r v'))
        (pte w w.kernel.root v).base := ⟨id, r, v', hr, rfl, hp', hbase⟩
    rcases hwrite.holds hnew with ⟨hne, hx⟩ | ⟨-, hc, -⟩
    · exact hne (Option.some.inj ((ho hb).unique hx hold))
    · cases hc
  · intro ht
    rw [hwrite.frames]
    exact (htot ht).1
  · rintro w' ⟨frames, rfl, hlen, hframes, ho'⟩
    refine ⟨h1.withFrames frames, ho', ?_⟩
    refine ⟨fun hc => hc.elim, ?_, ?_, hlen.trans (by rw [hwrite.frames]), ?_, by rw [hwrite.heap],
      by rw [hwrite.heap], by rw [hwrite.heap], hwrite.stackHeap, hwrite.kernel, hext.start,
      fun _ => hwrite.follow_eq, ?_, fun hc => hc.elim, hwrite.noTable, ?_⟩
    · intro r v' hr
      show pte w₁ r v' = _ ∨ (pte w₁ r v').p = false ∧ _
      rw [hwrite.view v' hr]
      split
      · rename_i hs
        exact .inr ⟨rfl, v, rfl, hs⟩
      · exact .inl rfl
    · intro f hf
      by_cases hfb : (pte w w.kernel.root v).base = f
      · exact .inr ⟨v, rfl, hp, hfb⟩
      · refine .inl ((hframes f).mpr ⟨?_, Ne.symm hfb⟩)
        rw [hwrite.frames]
        exact hf
    · intro b
      rw [hwrite.heap]
      exact (and_iff_left id).symm
    · intro t ht _
      cases htab : w.tables t with
      | none => exact hwrite.noTable htab
      | some n => exact (hext.foreign (by rw [htab]; rfl) fun hr => ht hr).trans htab
    · rintro y rfl
      show (pte w₁ w₁.kernel.root y).p = false
      rw [hwrite.kernel, hwrite.view y h.kernel, if_pos rfl]

/-! ## Blocks -/

section FreeBlock

variable {b : Nat} (h : Sound w R S) (hb : Unreached R w b) (hpool : ∀ x ∈ w.heap.pool, x.1 ≠ b)
include hb

theorem pte_freeBlock {r : Nat} (hr : R r) (v : VAddr) : pte (w.freed b) r v = pte w r v :=
  leaf_update fun _ => hb hr

theorem Torn.freeBlock : Torn R (· = b) (fun _ => False) w (w.freed b) where
  unreached := by
    rintro x rfl
    exact hb
  view v hr := .inl (pte_freeBlock hb hr v)
  frames := .inl
  framesLength := rfl
  map := used_set_false w.heap.map b
  mapLength := List.length_set
  pool := rfl
  allocating := rfl
  stackHeap := rfl
  kernel := rfl
  start := rfl
  follow_eq hr := follow_update fun _ => hb hr
  foreign _ ht := update_of_ne ht ..
  gone := by
    rintro t rfl
    exact update_self ..
  noTable {t} ht := by
    show update w.tables b none t = none
    by_cases htb : t = b
    · rw [htb, update_self]
    · rw [update_of_ne htb, ht]
  unmapped hc := hc.elim

include h hpool

theorem Sound.freeBlock : Sound (w.freed b) R S := by
  have h1 := h.update_unreached none hb (fun hc => by cases hc) hpool
  have hmap : ∀ {x : Nat}, x ≠ b → w.heap.map[x]? = some true →
      (w.freed b).heap.map[x]? = some true :=
    fun hx hmap => ((Torn.freeBlock hb).map _).mpr ⟨hmap, hx⟩
  refine { h1 with
    block := fun {t} ht => ?_
    poolBlock := fun {x} hx => ⟨hmap (hpool x hx) (h1.poolBlock hx).1, (h1.poolBlock hx).2⟩ }
  refine hmap ?_ (h1.block ht)
  rintro rfl
  rw [show (w.freed t).tables t = none from update_self ..] at ht
  cases ht

end FreeBlock

/-- The pages of the blocks that are not static. -/
def pagesOf (B : Nat → Prop) (v : VAddr) : Prop := ∃ b n, B b ∧ 16 ≤ b ∧ n < 2 ∧ v = heapPage b n

theorem pagesOf_or {B B' : Nat → Prop} {v : VAddr} :
    pagesOf (fun b => B b ∨ B' b) v ↔ pagesOf B v ∨ pagesOf B' v := by
  simp only [pagesOf, or_and_right, exists_or]

theorem heapPage_ne : slotOf r (heapPage b 1) ≠ slotOf r (heapPage b 0) := by
  intro hs
  obtain ⟨hp, -⟩ := slotOf_eq_iff.mp hs
  have hpage := path_eq_iff.mp hp
  simp only [pageOf, heapPage, BitVec.toNat_add, BitVec.toNat_ofNat, PAGE_SIZE] at hpage
  omega

theorem freeBlockPages_spec (h : Sound w R S) (ho : Owned R w)
    (htot : tot → w.frames.length ≤ 2 ^ 40 ∧
      (16 ≤ b → ∀ n < 2, (pte w w.kernel.root (heapPage b n)).p = true)) :
    Spec tot (Safe R) (fun w' => Sound w' R S ∧ Owned R w' ∧
      Torn R (fun _ => False) (pagesOf (· = b)) w w') (freeBlockPages w b) := by
  unfold freeBlockPages
  split
  · rename_i hle
    have hle : 16 ≤ b := by omega
    have e0 : pageToPtr b = heapPage b 0 := by simp [heapPage]
    have e1 : pageToPtr b + 0x1000 = heapPage b 1 := rfl
    rw [e1, e0]
    refine (unmapAndFree_spec h ho fun ht => ⟨(htot ht).1, (htot ht).2 hle 0 (by omega)⟩).bind ?_
    rintro w₁ - ⟨h1, ho1, htorn1⟩
    refine (unmapAndFree_spec h1 ho1 fun ht => ⟨htorn1.framesLength ▸ (htot ht).1, ?_⟩).mono ?_
    · rw [htorn1.kernel]
      rcases htorn1.view (heapPage b 1) h.kernel with hv | ⟨-, y, rfl, hs⟩
      · rw [hv]
        exact (htot ht).2 hle 1 (by omega)
      · exact absurd hs heapPage_ne
    · rintro w₂ ⟨h2, ho2, htorn2⟩
      refine ⟨h2, ho2, (htorn1.trans htorn2 h.kernel).congr (fun _ => (or_self_iff).symm) ?_⟩
      intro v
      constructor
      · rintro ⟨x, n, rfl, -, hn, rfl⟩
        rcases (by omega : n = 0 ∨ n = 1) with rfl | rfl
        · exact .inl rfl
        · exact .inr rfl
      · rintro (rfl | rfl)
        · exact ⟨b, 0, rfl, hle, by omega, rfl⟩
        · exact ⟨b, 1, rfl, hle, by omega, rfl⟩
  · rename_i hlt
    refine .pure ⟨h, ho, (Torn.refl w).congr (fun _ => Iff.rfl) ?_⟩
    intro v
    refine iff_false_intro ?_
    rintro ⟨x, n, rfl, hle, -, -⟩
    omega

/-- `kfree` of a block that no directory in use leads to. -/
theorem kfree_spec (h : Sound w R S) (ho : Owned R w) (hb : Unreached R w b)
    (hpool : ∀ x ∈ w.heap.pool, x.1 ≠ b)
    (htot : tot → w.frames.length ≤ 2 ^ 40 ∧ w.heap.map[b]? = some true ∧
      (16 ≤ b → ∀ n < 2, (pte w w.kernel.root (heapPage b n)).p = true)) : Spec tot (Safe R)
      (fun w' => Sound w' R S ∧ Owned R w' ∧ Torn R (· = b) (pagesOf (· = b)) w w')
    (kfree w b) := by
  refine (Spec.note trivial).bind fun _ _ => ?_
  refine (Spec.assert fun ht => (htot ht).2.1).bind fun _ _ => ?_
  refine (freeBlockPages_spec h ho fun ht => ⟨(htot ht).1, (htot ht).2.2⟩).bind ?_
  rintro w₁ - ⟨h1, ho1, htorn1⟩
  have hb1 : Unreached R w₁ b := htorn1.unreached_iff.mpr hb
  refine .pure ⟨h1.freeBlock hb1 (htorn1.pool ▸ hpool), ?_, ?_⟩
  · exact ho1.of_view (fun v hr _ => ⟨_, hr, rfl, pte_freeBlock hb1 hr v⟩) rfl
  · refine (htorn1.trans (.freeBlock hb1) h.kernel).congr ?_ ?_
    · exact fun _ => (iff_of_eq (false_or _)).symm
    · exact fun _ => (iff_of_eq (or_false _)).symm

/-! ## Tables -/

/-- The paths that `~PageManager` goes: not through slot 511 of level 2. -/
def Kept (p : List Nat) : Prop := p[1]? ≠ some 511 ∧ ∀ i ∈ p, i < 512

/-- The tables below the end of a path that it gets to. -/
def Under (T : Store Entry) (d : Nat) (q : List Nat) (x : Nat) : Prop :=
  ∃ p, q <+: p ∧ p ≠ q ∧ Kept p ∧ follow T d p = some x

section Destroy

variable {w₀ : World} {d : Nat}

/-- Of the directory `d` of `w₀`, which nobody uses any more, the tables in `B` are gone. -/
structure Down (R : Nat → Prop) (S : Nat) (w₀ : World) (B : Nat → Prop) (w : World) : Prop where
  sound : Sound w R S
  owned : Owned R w
  torn : Torn R B (pagesOf B) w₀ w
  taken : ∀ {b}, B b → w₀.heap.map[b]? = some true

variable {B : Nat → Prop} {p q : List Nat} {x i : Nat}

theorem Down.congr {B' : Nat → Prop} (h : Down R S w₀ B w) (hB : ∀ b, B' b ↔ B b) :
    Down R S w₀ B' w := by
  obtain rfl : B' = B := funext fun b => propext (hB b)
  exact h

/-- What is gone after the slots below `i` of the table at the end of `q`. -/
def Below (T : Store Entry) (d : Nat) (q : List Nat) (i x : Nat) : Prop :=
  ∃ j p, j < i ∧ q ++ [j] <+: p ∧ Kept p ∧ follow T d p = some x

theorem below_succ {T : Store Entry} : Below T d q (i + 1) x ↔
      Below T d q i x ∨ ∃ p, q ++ [i] <+: p ∧ Kept p ∧ follow T d p = some x := by
  constructor
  · rintro ⟨j, p, hj, hp⟩
    rcases Nat.lt_succ_iff_lt_or_eq.mp hj with hj | rfl
    · exact .inl ⟨j, p, hj, hp⟩
    · exact .inr ⟨p, hp⟩
  · rintro (⟨j, p, hj, hp⟩ | ⟨p, hp⟩)
    · exact ⟨j, p, by omega, hp⟩
    · exact ⟨i, p, by omega, hp⟩

theorem below_all {T : Store Entry} : Below T d q 512 x ↔ Under T d q x := by
  constructor
  · rintro ⟨j, p, hj, ⟨rest, rfl⟩, hkept, hp⟩
    refine ⟨_, ⟨j :: rest, by simp⟩, ?_, hkept, hp⟩
    intro hc
    have := congrArg List.length hc
    simp only [length_append, List.length_singleton] at this
    omega
  · rintro ⟨p, ⟨rest, rfl⟩, hne, hkept, hp⟩
    cases rest with
    | nil => exact absurd (append_nil q) hne
    | cons j rest =>
      exact ⟨j, _, hkept.2 j (by simp), ⟨rest, by simp⟩, hkept, hp⟩

theorem last_eq {j : Nat} (hi : q ++ [i] <+: p) (hj : q ++ [j] <+: p) : i = j := by
  obtain ⟨rest, rfl⟩ := hi
  obtain ⟨rest', h⟩ := hj
  simp only [append_assoc, List.append_cancel_left_eq] at h
  exact (List.cons.inj h).1.symm

theorem Kept.snoc {level : Nat} (hq : Kept q) (hi : i < 512)
    (hlen : q.length + (level + 1) = 3) (hskip : ¬ (level + 1 = 2 ∧ i = 511)) : Kept
    (q ++ [i]) := by
  refine ⟨?_, ?_⟩
  · intro hc
    rcases Nat.lt_trichotomy q.length 1 with hlt | heq | hgt
    · rw [List.getElem?_append_right (by omega), List.getElem?_singleton, if_neg (by omega)] at hc
      cases hc
    · rw [List.getElem?_append_right (by omega), heq] at hc
      exact hskip ⟨by omega, Option.some.inj hc⟩
    · rw [List.getElem?_append_left hgt] at hc
      exact hq.1 hc
  · intro j hj
    rcases mem_append.mp hj with hj | hj
    · exact hq.2 j hj
    · rw [mem_singleton.mp hj]
      exact hi

variable (h₀ : Sound w₀ (fun r => R r ∨ r = d) S) (hd : ¬ R d)
include h₀

theorem Below.of_prefix (hb : Below w₀.tables d q i x)
    (hp : follow w₀.tables d p = some x) : ∃ j < i, q ++ [j] <+: p := by
  obtain ⟨j, p', hj, hpre, -, hp'⟩ := hb
  rw [h₀.path_unique (.inr rfl) (.inr rfl) hp hp']
  exact ⟨j, hj, hpre⟩

include hd

/-- The tables it gets to are the directory's own. -/
theorem Kept.unreached (hp : Kept p) (hx : follow w₀.tables d p = some x) : Unreached R w₀ x := by
  intro r q hr hq
  have howner := congrArg Prod.fst (h₀.label (.inr rfl) (.inl hr) hx hq)
  have hprivate : ¬ [511, 511] <+: p := by
    rintro ⟨rest, rfl⟩
    exact hp.1 rfl
  rw [labelOf_owner, labelOf_owner, if_neg hprivate] at howner
  split at howner
  · cases howner
  · cases howner
    exact hd hr

variable (htot : tot → w₀.frames.length ≤ 2 ^ 40 ∧ Backed w₀) (hk : R w₀.kernel.root)
include htot hk

theorem Down.kfree (h : Down R S w₀ B w) (hp : Kept p)
    (hx : follow w₀.tables d p = some x) (hB : ¬ B x) :
    Spec tot (Safe R) (Down R S w₀ fun b => B b ∨ b = x) (kfree w x) := by
  have hfar := hp.unreached h₀ hd hx
  have hlive := h₀.live (.inr rfl) hx
  have hused := h₀.block hlive
  have hpool : ∀ b ∈ w.heap.pool, b.1 ≠ x := by
    rintro b hb rfl
    rw [h.torn.pool] at hb
    rw [(h₀.poolBlock hb).2] at hlive
    cases hlive
  refine (kfree_spec h.sound h.owned (h.torn.unreached_iff.mpr hfar) hpool fun ht => ⟨?_, ?_, ?_⟩).mono ?_
  · rw [h.torn.framesLength]
    exact (htot ht).1
  · exact (h.torn.map x).mpr ⟨hused, hB⟩
  · intro hle n hn
    have hback := (htot ht).2
    rw [h.torn.kernel]
    rcases h.torn.view (heapPage x n) hk with hv | ⟨-, y, ⟨b, n', hb, -, hn', rfl⟩, hs⟩
    · rw [hv]
      exact hback.page hle hn hused
    · -- the pages that are gone are of other blocks
      have hroom := hback.room
      have hxlt := getElem?_lt hused
      have hblt := getElem?_lt (h.taken hb)
      obtain ⟨rfl, -⟩ := slotOf_heapPage (by omega) (by omega) hn hn' hs
      exact absurd hb hB
  · rintro w' ⟨h', ho', htorn'⟩
    refine ⟨h', ho', (h.torn.trans htorn' hk).congr (fun _ => Iff.rfl) fun _ => pagesOf_or, ?_⟩
    rintro b (hb | rfl)
    · exact h.taken hb
    · exact hused

/-- `~PageManager` takes down all it gets to below a table. -/
theorem destroyTable_spec (level : Nat) {t : Nat}
    (h : Down R S w₀ B w) (hq : follow w₀.tables d q = some t) (hkept : Kept q)
    (hlen : q.length + level = 3)
    (hclean : ∀ {p x}, q <+: p → Kept p → follow w₀.tables d p = some x → ¬ B x) :
    Spec tot (Safe R) (Down R S w₀ fun b => B b ∨ Under w₀.tables d q b)
      (destroyTable level w t) := by
  induction level generalizing w B q t with
  | zero =>
    refine .pure (h.congr fun b => or_iff_left ?_)
    rintro ⟨p, ⟨rest, rfl⟩, hne, -, hp⟩
    have hdepth := h₀.depth (.inr rfl) hp
    rw [length_append] at hdepth
    refine hne ?_
    rw [List.length_eq_zero_iff.mp (by omega : rest.length = 0), append_nil]
  | succ level ih =>
    refine (Spec.foldlM_range (fun i => Down R S w₀ fun b => B b ∨ Below w₀.tables d q i b) ?_
      ?_).mono fun hdown => hdown.congr fun b => or_congr_right below_all.symm
    · refine h.congr fun b => or_iff_left ?_
      rintro ⟨j, p, hj, -⟩
      omega
    intro w i hi hdown
    -- what is left to come, if nothing is gone by the slot
    have hnext : (∀ p x, q ++ [i] <+: p → Kept p → follow w₀.tables d p ≠ some x) →
        Down R S w₀ (fun b => B b ∨ Below w₀.tables d q (i + 1) b) w := by
      intro hnone
      refine hdown.congr fun b => or_congr_right ?_
      rw [below_succ]
      refine or_iff_left ?_
      rintro ⟨p, hpre, hp, hx⟩
      exact hnone p b hpre hp hx
    split
    · rename_i hskip
      refine .pure (hnext fun p x hpre hp _ => hp.1 ?_)
      obtain ⟨rest, rfl⟩ := hpre
      rw [append_assoc, List.getElem?_append_right (by omega), hskip.2,
        (by omega : 1 - q.length = 0)]
      rfl
    · rename_i hskip
      obtain ⟨n, hn⟩ := isSome_iff_exists.mp (h₀.live (.inr rfl) hq)
      -- the table itself is still there
      have ht : ¬ (B t ∨ Below w₀.tables d q i t) := by
        rintro (hb | hb)
        · exact hclean (List.prefix_refl q) hkept hq hb
        · obtain ⟨j, -, rest, hpre⟩ := hb.of_prefix h₀ hq
          have := congrArg List.length hpre
          simp only [length_append, List.length_singleton] at this
          omega
      have hw : w.tables t = some n :=
        (hdown.torn.foreign (hkept.unreached h₀ hd hq) ht).trans hn
      have hsnoc : follow w₀.tables d (q ++ [i]) = n.next i := follow_snoc hq hn
      rw [hw, Traced.lift_some_bind]
      cases hu : n.next i with
      | none =>
        refine .pure (hnext fun p x hpre _ hx => ?_)
        obtain ⟨rest, rfl⟩ := hpre
        rw [follow_append, hsnoc, hu] at hx
        cases hx
      | some u =>
        rw [hu] at hsnoc
        have hkept' := hkept.snoc hi hlen hskip
        refine (ih hdown hsnoc hkept' (by simp; omega) ?_).bind ?_
        · rintro p x hpre hp hx (hb | hb)
          · exact hclean ((List.prefix_append q [i]).trans hpre) hp hx hb
          · obtain ⟨j, hj, hpre'⟩ := hb.of_prefix h₀ hx
            exact hj.ne (last_eq hpre' hpre)
        rintro w₁ - hdown1
        refine (hdown1.kfree h₀ hd htot hk hkept' hsnoc ?_).mono ?_
        · rintro ((hb | hb) | ⟨p, hpre, hne, -, hp⟩)
          · exact hclean (List.prefix_append q [i]) hkept' hsnoc hb
          · obtain ⟨j, hj, hpre'⟩ := hb.of_prefix h₀ hsnoc
            exact hj.ne (last_eq hpre' (List.prefix_refl _))
          · exact hne (h₀.path_unique (.inr rfl) (.inr rfl) hp hsnoc)
        · intro w₂ hdown2
          refine hdown2.congr fun b => ?_
          rw [below_succ]
          constructor
          · rintro (hb | hb | ⟨p, hpre, hp, hx⟩)
            · exact .inl (.inl (.inl hb))
            · exact .inl (.inl (.inr hb))
            · by_cases hpq : p = q ++ [i]
              · subst hpq
                exact .inr (mem_unique hx hsnoc)
              · exact .inl (.inr ⟨p, hpre, hpq, hp, hx⟩)
          · rintro (((hb | hb) | ⟨p, hpre, -, hp, hx⟩) | rfl)
            · exact .inl hb
            · exact .inr (.inl hb)
            · exact .inr (.inr ⟨p, hpre, hp, hx⟩)
            · exact .inr (.inr ⟨_, List.prefix_refl _, hkept', hsnoc⟩)

/-- The tables of the directory that `release` gets to. -/
def Own (T : Store Entry) (d b : Nat) : Prop := ∃ p, Kept p ∧ follow T d p = some b

variable (ho : Owned R w₀)
include ho

/-- `release` takes down the directory, but for what it does not get to. -/
theorem release_spec : Spec tot (Safe R) (Down R S w₀ (Own w₀.tables d)) (release w₀ d) := by
  have hstart : Down R S w₀ (fun _ => False) w₀ := by
    refine ⟨h₀.mono .inl hk, ho, (Torn.refl w₀).congr (fun _ => Iff.rfl) ?_, fun hc => hc.elim⟩
    intro v
    refine iff_false_intro ?_
    rintro ⟨b, n, hb, -⟩
    exact hb
  have hroot : follow w₀.tables d [] = some d := rfl
  have hnil : Kept [] := ⟨by simp, by simp⟩
  have htables := destroyTable_spec h₀ hd htot hk 3 hstart hroot hnil rfl fun _ _ _ => id
  rw [release]
  refine htables.bind ?_
  rintro w₁ - hdown
  refine (hdown.kfree h₀ hd htot hk hnil hroot ?_).mono ?_
  · rintro (hb | ⟨p, -, hne, -, hp⟩)
    · exact hb
    · exact hne (h₀.path_unique (.inr rfl) (.inr rfl) hp hroot)
  · intro w₂ hdown2
    refine hdown2.congr fun b => ?_
    constructor
    · rintro ⟨p, hp, hb⟩
      by_cases hpn : p = []
      · subst hpn
        exact .inr (Option.some.inj hb).symm
      · exact .inl (.inr ⟨p, List.nil_prefix, hpn, hp, hb⟩)
    · rintro ((hb | ⟨p, -, -, hp, hb⟩) | rfl)
      · exact hb.elim
      · exact ⟨p, hp, hb⟩
      · exact ⟨[], hnil, rfl⟩

end Destroy

/-! ## Pages -/

section Pages

variable {d : Nat}

/-- The frames of the first `n` pages of the directory. -/
def FrameBelow (T : Store Entry) (d n f : Nat) : Prop :=
  ∃ m < n, (pageEntry T d m).p = true ∧ (pageEntry T d m).base = f

/-- The frames of the first `n` pages are given back, and nothing else has happened. -/
structure Freed (d n : Nat) (w w' : World) : Prop where
  eq : w' = { w with frames := w'.frames }
  length : w'.frames.length = w.frames.length
  used : ∀ f, Used w'.frames f ↔ Used w.frames f ∧ ¬ FrameBelow w.tables d n f

variable {n : Nat}

theorem frameBelow_succ {T : Store Entry} : FrameBelow T d (n + 1) f ↔
    FrameBelow T d n f ∨ (pageEntry T d n).p = true ∧ (pageEntry T d n).base = f := by
  constructor
  · rintro ⟨m, hm, hpm⟩
    rcases Nat.lt_succ_iff_lt_or_eq.mp hm with hm | rfl
    · exact .inl ⟨m, hm, hpm⟩
    · exact .inr hpm
  · rintro (⟨m, hm, hpm⟩ | hpn)
    · exact ⟨m, by omega, hpm⟩
    · exact ⟨n, by omega, hpn⟩

theorem Freed.succ_of_not (hf : Freed d n w w') (hp : ¬ (pageEntry w.tables d n).p = true) :
    Freed d (n + 1) w w' := by
  refine ⟨hf.eq, hf.length, fun f => ?_⟩
  rw [hf.used, frameBelow_succ, or_iff_left fun hc => hp hc.1]

theorem freeUserPage_tables {e : Entry} {v : VAddr}
    (hres : (freeUserPage w e v : Traced Call World).result = some w') :
    w'.tables = w.tables := by
  unfold freeUserPage World.setPageFree at hres
  simp only [result_ite, result_bind] at hres
  split at hres
  · obtain ⟨-, -, hres⟩ := of_bind hres
    obtain ⟨frames, -, hres⟩ := of_bind hres
    cases hres
    rfl
  · obtain ⟨-, -, hres⟩ := of_bind hres
    cases hres
    rfl

theorem forEach_freeUserPage_eq (h : Sound w (fun r => R r ∨ r = d) S) :
    (forEachUserPage World.tables freeUserPage d w : Traced Call World)
      = (List.range lowerPages).foldlM (visit w.tables freeUserPage d) w := by
  have hkeeps : ∀ s : World, s.tables = w.tables → Keeps w.tables s.tables d := by
    intro s hs
    rw [hs]
    exact ⟨fun ht => h.live (.inr rfl) ht, fun _ => id, fun _ => rfl⟩
  have hstep : ∀ (s : World) (n : Nat) (s' : World), s.tables = w.tables → n < 2 ^ 35 →
      (pageEntry w.tables d n).isValid →
      (freeUserPage s (pageEntry w.tables d n) (userPage n) : Traced Call World).result = some s' →
      s'.tables = w.tables ∧ PathsStay s.tables s'.tables d := by
    intro s n s' hs _ _ hres
    have hs' := freeUserPage_tables hres
    exact ⟨hs'.trans hs, fun p t hp => by rw [hs', hp]⟩
  rw [forEachUserPage_eq hkeeps hstep rfl]

variable (ho : Owned (fun r => R r ∨ r = d) w) (hd : ¬ R d)
include ho hd

/-- A frame of the directory is not a frame of another. -/
theorem frame_apart (hn : n < lowerPages) (hb : w.frames.length ≤ 2 ^ 40)
    (hp : (pageEntry w.tables d n).p = true) {r : Nat} {v : VAddr} (hr : R r)
    (hv : (pte w r v).p = true) : (pte w r v).base ≠ (pageEntry w.tables d n).base := by
  intro hbase
  have hx : Holds (fun r => R r ∨ r = d) (fun _ => False) (fun _ => False) w (some (slotOf r v))
      (pageEntry w.tables d n).base := ⟨id, r, v, .inl hr, rfl, hv, hbase⟩
  have hy : Holds (fun r => R r ∨ r = d) (fun _ => False) (fun _ => False) w
      (some (slotOf d (userPage n))) (pageEntry w.tables d n).base :=
    ⟨id, d, _, .inr rfl, rfl, hp, rfl⟩
  have hs := Option.some.inj ((ho hb).unique hy hx)
  rcases (slotOf_eq_iff.mp hs).2 with rfl | hshared
  · exact hd hr
  · exact lower_not_shared hn hshared

theorem Freed.owned (hn : n ≤ lowerPages) (hf : Freed d n w w') : Owned R w' := by
  intro hb
  have hb0 : w.frames.length ≤ 2 ^ 40 := hf.length ▸ hb
  have hview : ∀ r v, pte w' r v = pte w r v := by
    intro r v
    rw [hf.eq]
    rfl
  refine (ho hb0).drop ?_ ?_
  · rintro (_ | s) f hx
    · exact hx
    · obtain ⟨hX, r, v, hr, hs, hp, hbase⟩ := hx
      rw [hview] at hp hbase
      exact ⟨hX, r, v, .inl hr, hs, hp, hbase⟩
  · rintro (_ | s) f hx hused
    · exact hx.elim
    · refine (hf.used f).mpr ⟨hused, ?_⟩
      rintro ⟨m, hm, hp, rfl⟩
      obtain ⟨-, r, v, hr, -, hpv, hbase⟩ := hx
      rw [hview] at hpv hbase
      exact frame_apart ho hd (by omega) hb0 hp hr hpv hbase

theorem freeUserPage_spec (hn : n < lowerPages) (hf : Freed d n w w')
    (hvalid : (pageEntry w.tables d n).isValid) (htot : tot → w.frames.length ≤ 2 ^ 40) :
    Spec tot (Safe R) (Freed d (n + 1) w)
      (freeUserPage w' (pageEntry w.tables d n) (userPage n)) := by
  have hview : ∀ r v, pte w' r v = pte w r v := by
    intro r v
    rw [hf.eq]
    rfl
  unfold freeUserPage
  split
  · rename_i hp
    have howned := hf.owned ho hd hn.le
    refine (w'.setPageFree_spec howned ?_ fun ht => hf.length ▸ htot ht).mono ?_
    · intro hb
      have hb0 : w.frames.length ≤ 2 ^ 40 := hf.length ▸ hb
      refine ⟨(hf.used _).mpr ⟨?_, ?_⟩, fun r v hr hpv => ?_⟩
      · exact (ho hb0).marked (x := some (slotOf d (userPage n)))
          ⟨id, d, _, .inr rfl, rfl, hp, rfl⟩
      · -- no page before this one has its frame
        rintro ⟨m, hm, hpm, hbase⟩
        have hs := (ho hb0).unique (x := some (slotOf d (userPage m)))
          (y := some (slotOf d (userPage n))) ⟨id, d, _, .inr rfl, rfl, hpm, hbase⟩
          ⟨id, d, _, .inr rfl, rfl, hp, rfl⟩
        exact hm.ne (userPage_slot_inj (hm.trans hn) hn (Option.some.inj hs))
      · rw [hview] at hpv ⊢
        exact frame_apart ho hd hn hb0 hp hr hpv
    · rintro w'' ⟨frames, rfl, hlen, hused, -⟩
      refine ⟨?_, hlen.trans hf.length, fun f => ?_⟩
      · rw [hf.eq]
      · rw [hused, hf.used, frameBelow_succ, not_or, and_assoc, and_iff_right hp, ne_comm]
  · rename_i hp
    have hbase : (pageEntry w.tables d n).base = INVALID_PAGE := by
      rw [Entry.isValid, (Bool.not_eq_true _).mp hp] at hvalid
      exact beq_iff_eq.mp hvalid
    refine (Spec.assert fun _ => by rw [hbase]; rfl).bind fun _ _ => ?_
    exact .pure (hf.succ_of_not hp)

/-- All pages of the lower half are given back. -/
theorem freeUserPages_spec (h : Sound w (fun r => R r ∨ r = d) S)
    (htot : tot → w.frames.length ≤ 2 ^ 40) :
    Spec tot (Safe R) (Freed d lowerPages w)
      (forEachUserPage World.tables freeUserPage d w) := by
  rw [forEach_freeUserPage_eq h]
  refine Spec.foldlM_range (fun n => Freed d n w) ?_ ?_
  · refine ⟨rfl, rfl, fun f => (and_iff_left ?_).symm⟩
    rintro ⟨m, hm, -⟩
    omega
  · intro s n hn hf
    rw [visit]
    split
    · rename_i hvalid
      exact freeUserPage_spec ho hd hn hf hvalid htot
    · rename_i hvalid
      refine .pure (hf.succ_of_not fun hp => hvalid ?_)
      rw [Entry.isValid, hp]
      rfl

end Pages

/-! ## `unmapUserSpace` -/

section UnmapUserSpace

variable {R₀ : Nat → Prop} {d : Nat} {pd : PageDirectory}

/-- The directories in use once `d` has been swapped for the new one. -/
def Swapped (R₀ : Nat → Prop) (d : Nat) (pd : PageDirectory) (r : Nat) : Prop :=
  (R₀ r ∧ r ≠ d) ∨ r = pd.root

/-- `unmapUserSpace`: the frames of the lower half go first, and then the tables. -/
theorem unmapUserSpace_spec (h : Sound w R₀ S) (ho : Owned R₀ w) (hd : R₀ d)
    (hdk : d ≠ w.kernel.root) (hm : mapKernel w = some (w₁, pd))
    (htot : tot → w₁.frames.length ≤ 2 ^ 40 ∧ Backed w₁) :
    Spec tot (Safe (Swapped R₀ d pd))
      (fun x => x.2 = pd ∧ ∃ w₂, Freed d lowerPages w₁ w₂ ∧
        (release w₂ d : Traced Call World).result = some x.1 ∧
        Down (Swapped R₀ d pd) S w₂ (Own w₂.tables d) x.1) (unmapUserSpace w d) := by
  have hmap := mapKernel_spec h hm
  have hne : d ≠ pd.root := by
    rintro rfl
    have hlive := h.rootLive hd
    rw [hmap.new] at hlive
    cases hlive
  have hR : ∀ {r}, Swapped R₀ d pd r ∨ r = d → R₀ r ∨ r = pd.root := by
    rintro r ((⟨hr, -⟩ | hr) | rfl)
    · exact .inl hr
    · exact .inr hr
    · exact .inl hd
  have hk1 : w₁.kernel = w.kernel := hmap.ext.kernel
  have hk : Swapped R₀ d pd w₁.kernel.root := .inl ⟨hk1 ▸ h.kernel, by rw [hk1]; exact hdk.symm⟩
  have hnot : ¬ Swapped R₀ d pd d := by
    rintro (⟨-, hc⟩ | hc)
    · exact hc rfl
    · exact hne hc
  have h1 : Sound w₁ (fun r => Swapped R₀ d pd r ∨ r = d) S := hmap.sound.mono hR (.inl hk)
  have ho1 : Owned (fun r => Swapped R₀ d pd r ∨ r = d) w₁ := (ho.mapKernel h hmap).mono hR
  have hpages := freeUserPages_spec ho1 hnot h1 fun ht : tot => (htot ht).1
  rw [unmapUserSpace, hm, Traced.lift_some_bind]
  refine hpages.bind fun {w₂} _ hf => ?_
  have h2 : Sound w₂ (fun r => Swapped R₀ d pd r ∨ r = d) S := by
    rw [hf.eq]
    exact h1.withFrames _
  have hk2 : Swapped R₀ d pd w₂.kernel.root := by
    rw [hf.eq]
    exact hk
  have hrelease := release_spec h2 hnot (fun ht : tot => ⟨?_, ?_⟩) hk2
    (hf.owned ho1 hnot le_rfl)
  · exact hrelease.bind fun hres hdown => .pure ⟨rfl, w₂, hf, hres, hdown⟩
  · rw [hf.length]
    exact (htot ht).1
  · have hback := (htot ht).2
    rw [hf.eq]
    exact ⟨hback.room, hback.page⟩

end UnmapUserSpace

end Flix.Paging

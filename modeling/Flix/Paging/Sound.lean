import Flix.Paging.Model

/-!
# Where a table stands

Each table of a page directory is at one place: below its root, at the end of one
path. The exception is the kernel's part. The table for the addresses from
`0xffffffffc0000000` on, reached over index 511 twice, is the same in all
directories, and so is everything below it.

A *label* says where a table stands: whose it is, `none` for the shared part, and
the path. `Sound` says that each table has one label, however it is reached, together
with what the page heap must know about the blocks the tables are in. Two addresses
in two directories lead to the same entry exactly if they have the same *slot*, which
is a label and an index.
-/

namespace Flix.Paging

open Function Radix

/-! ## Labels and slots -/

abbrev Label := Option Nat × List Nat

def Label.ext (ℓ : Label) (i : Nat) : Label :=
  (if ℓ.2 ++ [i] = [511, 511] then none else ℓ.1, ℓ.2 ++ [i])

/-- The label of what the path leads to in the directory of `r`. -/
def labelOf (r : Nat) (p : List Nat) : Label := p.foldl Label.ext (some r, [])

/-- The indices on the way from level `stop + n` to level `stop`. -/
def pathTo (stop : Nat) : Nat → VAddr → List Nat
  | 0, _ => []
  | n + 1, v => index (stop + n + 1) v :: pathTo stop n v

def path (v : VAddr) : List Nat := [index 3 v, index 2 v, index 1 v]

abbrev Slot := Label × Nat

def slotOf (r : Nat) (v : VAddr) : Slot := (labelOf r (path v), index 0 v)

/-- The entry of an address in the directory of `r`, zero where a table is missing. -/
def pte (w : World) (r : Nat) (v : VAddr) : Entry := leaf .zero w.tables r (path v) (index 0 v)

theorem foldl_ext_path (ℓ : Label) (p : List Nat) : (p.foldl Label.ext ℓ).2 = ℓ.2 ++ p := by
  induction p generalizing ℓ with
  | nil => simp
  | cons i p ih =>
    rw [List.foldl_cons, ih, Label.ext]
    simp

theorem labelOf_path (r : Nat) (p : List Nat) : (labelOf r p).2 = p := by
  rw [labelOf, foldl_ext_path]
  rfl

theorem labelOf_snoc (r : Nat) (p : List Nat) (i : Nat) :
    labelOf r (p ++ [i]) = (labelOf r p).ext i := by
  rw [labelOf, List.foldl_append]
  rfl

theorem foldl_ext_owner_of_le {ℓ : Label} (h : 2 ≤ ℓ.2.length) (p : List Nat) :
    (p.foldl Label.ext ℓ).1 = ℓ.1 := by
  induction p generalizing ℓ with
  | nil => rfl
  | cons i p ih =>
    have hne : ℓ.2 ++ [i] ≠ [511, 511] := by
      intro e
      have := congrArg List.length e
      simp at this
      omega
    rw [List.foldl_cons, ih, Label.ext, if_neg hne]
    rw [Label.ext, length_append]
    omega

/-- Whose table it is: it is shared exactly if the path starts with 511 twice. -/
theorem labelOf_owner (r : Nat) (p : List Nat) :
    (labelOf r p).1 = if [511, 511] <+: p then none else some r := by
  match p with
  | [] => simp [labelOf]
  | [a] => simp [labelOf, Label.ext]
  | a :: b :: p =>
    have hfold : labelOf r (a :: b :: p) = p.foldl Label.ext (labelOf r [a, b]) := rfl
    rw [hfold, foldl_ext_owner_of_le (by rw [labelOf_path]; simp)]
    simp only [labelOf, Label.ext, List.foldl_cons]
    by_cases h : a = 511 ∧ b = 511
    · simp [h]
    · have h' : ¬ (511 = a ∧ 511 = b) := fun e => h ⟨e.1.symm, e.2.symm⟩
      simp [h, h']

/-- Addresses from `0xffffffffc0000000` on, as far as the tables can tell. -/
def Shared (v : VAddr) : Prop := index 3 v = 511 ∧ index 2 v = 511

instance (v : VAddr) : Decidable (Shared v) := inferInstanceAs (Decidable (_ ∧ _))

theorem slotOf_owner (r : Nat) (v : VAddr) :
    (slotOf r v).1.1 = if Shared v then none else some r := by
  have h : [511, 511] <+: path v ↔ Shared v := by
    simp [path, Shared, eq_comm]
  rw [slotOf, labelOf_owner]
  by_cases hs : Shared v
  · rw [if_pos (h.mpr hs), if_pos hs]
  · rw [if_neg (fun e => hs (h.mp e)), if_neg hs]

/-- When two addresses have the same slot. -/
theorem slotOf_eq_iff {r r' : Nat} {v v' : VAddr} :
    slotOf r v = slotOf r' v' ↔
      (path v = path v' ∧ index 0 v = index 0 v') ∧ (r = r' ∨ Shared v) := by
  have hpath : (slotOf r v).1.2 = path v := labelOf_path r (path v)
  have hpath' : (slotOf r' v').1.2 = path v' := labelOf_path r' (path v')
  have hshared : path v = path v' → (Shared v ↔ Shared v') := by
    intro h
    simp only [path, List.cons.injEq] at h
    simp only [Shared, h.1, h.2.1]
  constructor
  · intro h
    have hp : path v = path v' := by rw [← hpath, ← hpath', h]
    have hi : index 0 v = index 0 v' := congrArg Prod.snd h
    refine ⟨⟨hp, hi⟩, ?_⟩
    by_cases hs : Shared v
    · exact .inr hs
    · have ho := slotOf_owner r v
      rw [h, slotOf_owner, if_neg hs, if_neg (fun e => hs ((hshared hp).mpr e))] at ho
      exact .inl (Option.some.inj ho).symm
  · rintro ⟨⟨hp, hi⟩, hr⟩
    refine Prod.ext (Prod.ext ?_ ?_) hi
    · rw [slotOf_owner, slotOf_owner]
      rcases hr with rfl | hs
      · by_cases hs : Shared v
        · rw [if_pos hs, if_pos ((hshared hp).mp hs)]
        · rw [if_neg hs, if_neg (fun e => hs ((hshared hp).mpr e))]
      · rw [if_pos hs, if_pos ((hshared hp).mp hs)]
    · rw [hpath, hpath', hp]

/-! ## Soundness -/

/-- The tables, with `R` the roots of the directories in use and `S` the table they share. What no
directory leads to may be anything. -/
structure Sound (w : World) (R : Nat → Prop) (S : Nat) : Prop where
  kernel : R w.kernel.root
  rootShares : ∀ {r}, R r → follow w.tables r [511, 511] = some S
  live : ∀ {r p t}, R r → follow w.tables r p = some t → (w.tables t).isSome
  /-- All the ways to a table give it one label. -/
  label : ∀ {r r' p p' t}, R r → R r' → follow w.tables r p = some t →
    follow w.tables r' p' = some t → labelOf r p = labelOf r' p'
  depth : ∀ {r p t}, R r → follow w.tables r p = some t → p.length ≤ 3
  /-- Where there is no pointer the processor finds no table either. -/
  absent : ∀ {r p t n i}, R r → follow w.tables r p = some t → w.tables t = some n →
    p.length < 3 → n.next i = none → (n.entries i).p = false
  block : ∀ {t}, (w.tables t).isSome → w.heap.map[t]? = some true
  poolBlock : ∀ {b}, b ∈ w.heap.pool → w.heap.map[b.1]? = some true ∧ w.tables b.1 = none
  poolNodup : (w.heap.pool.map Prod.fst).Nodup

variable {w : World} {R : Nat → Prop} {S : Nat}

namespace Sound

variable {r r' : Nat}

theorem rootLive (h : Sound w R S) (hr : R r) : (w.tables r).isSome :=
  h.live (p := []) hr rfl

theorem path_unique (h : Sound w R S) {t : Nat} {p p' : List Nat} (hr : R r) (hr' : R r')
    (hp : follow w.tables r p = some t) (hp' : follow w.tables r' p' = some t) : p = p' := by
  rw [← labelOf_path r p, h.label hr hr' hp hp', labelOf_path]

/-- Equal labels are reached together, the shared ones from every root. -/
theorem follow_of_label (h : Sound w R S) {p : List Nat} (hr : R r) (hr' : R r')
    (hl : labelOf r p = labelOf r' p) : follow w.tables r p = follow w.tables r' p := by
  by_cases hs : [511, 511] <+: p
  · obtain ⟨q, rfl⟩ := hs
    rw [follow_append, follow_append, h.rootShares hr, h.rootShares hr']
  · have ho := congrArg Prod.fst hl
    rw [labelOf_owner, labelOf_owner, if_neg hs, if_neg hs] at ho
    rw [Option.some.inj ho]

/-- An entry depends on the slot alone. -/
theorem pte_of_slot (h : Sound w R S) {v v' : VAddr} (hr : R r) (hr' : R r')
    (hs : slotOf r v = slotOf r' v') : pte w r v = pte w r' v' := by
  obtain ⟨⟨hp, hi⟩, -⟩ := slotOf_eq_iff.mp hs
  have hl : labelOf r (path v) = labelOf r' (path v) := by
    have := congrArg Prod.fst hs
    rw [slotOf, slotOf, ← hp] at this
    exact this
  rw [pte, pte, leaf, leaf, h.follow_of_label hr hr' hl, hp, hi]

/-- Soundness is about the tables, the pool and the blocks that are taken. -/
theorem of_tables (h : Sound w R S) {w' : World} (htables : w'.tables = w.tables)
    (hkernel : w'.kernel = w.kernel) (hpool : w'.heap.pool = w.heap.pool)
    (hmap : ∀ x : Nat, w.heap.map[x]? = some true → w'.heap.map[x]? = some true) :
    Sound w' R S := by
  refine ⟨by rw [hkernel]; exact h.kernel, ?_, ?_, ?_, ?_, ?_, ?_, ?_, ?_⟩
  all_goals simp only [htables, hpool]
  · exact h.rootShares
  · exact h.live
  · exact h.label
  · exact h.depth
  · exact h.absent
  · exact fun ht => hmap _ (h.block ht)
  · exact fun hb => ⟨hmap _ (h.poolBlock hb).1, (h.poolBlock hb).2⟩
  · exact h.poolNodup

theorem mono (h : Sound w R S) {R' : Nat → Prop} (hR : ∀ {r}, R' r → R r)
    (hk : R' w.kernel.root) : Sound w R' S :=
  ⟨hk, fun hr => h.rootShares (hR hr), fun hr => h.live (hR hr),
    fun hr hr' => h.label (hR hr) (hR hr'), fun hr => h.depth (hR hr),
    fun hr => h.absent (hR hr), h.block, h.poolBlock, h.poolNodup⟩

end Sound

/-! ## A small kernel -/

/-- A table with one slot filled. -/
def oneSlot (i : Nat) (e : Entry) (u : Nat) : Node Entry :=
  ⟨update (fun _ => .zero) i e, update (fun _ => none) i (some u)⟩

theorem oneSlot_next {i u j x : Nat} {e : Entry} :
    (oneSlot i e u).next j = some x ↔ j = i ∧ x = u := by
  by_cases hj : j = i
  · subst hj
    simp [oneSlot, eq_comm]
  · simp [oneSlot, hj]

theorem oneSlot_absent {i u j : Nat} {e : Entry} (h : (oneSlot i e u).next j = none) :
    ((oneSlot i e u).entries j).p = false := by
  have hj : j ≠ i := by
    rintro rfl
    rw [oneSlot_next.mpr ⟨rfl, rfl⟩] at h
    cases h
  simp [oneSlot, hj, Entry.zero]

/-- A kernel directory with nothing in it but the page heap: the root, one table for each level
below, sixteen blocks in the pool. The heap's pages are on the frames from 8 on. -/
def smallKernel : World where
  tables := fun t =>
    match t with
    | 0 => some (oneSlot 511 ⟨true, true, true, false, 10⟩ 1)
    | 1 => some (oneSlot 511 ⟨true, true, true, false, 12⟩ 2)
    | 2 => some (oneSlot 256 ⟨true, true, true, false, 14⟩ 3)
    | 3 => some ⟨fun i => if i < 40 then ⟨true, true, false, true, 8 + i⟩ else .zero,
        fun _ => none⟩
    | _ => none
  heap := ⟨List.replicate 20 true,
    (List.range 16).map fun i => (i + 4, (8 + 2 * (i + 4)) * PAGE_SIZE), false, 20⟩
  stackHeap := ⟨[], 0⟩
  frames := List.replicate 8 false ++ List.replicate 40 true
  kernel := ⟨0, 8⟩
  pageHeapStart := 0x8000

theorem smallKernel_follow {p : List Nat} {t : Nat} (h : follow smallKernel.tables 0 p = some t) :
    (p = [] ∧ t = 0) ∨ (p = [511] ∧ t = 1) ∨ (p = [511, 511] ∧ t = 2) ∨
      (p = [511, 511, 256] ∧ t = 3) := by
  -- one step down, from a table with one slot
  have hone : ∀ {t i u j : Nat} {e : Entry} {q : List Nat} {x : Nat},
      smallKernel.tables t = some (oneSlot i e u) →
      follow smallKernel.tables t (j :: q) = some x →
      j = i ∧ follow smallKernel.tables u q = some x := by
    intro t i u j e q x ht hf
    rw [follow_cons ht] at hf
    obtain ⟨u', hu', hrest⟩ := of_bind hf
    obtain ⟨hj, rfl⟩ := oneSlot_next.mp hu'
    exact ⟨hj, hrest⟩
  rcases p with _ | ⟨i, p⟩
  · exact .inl ⟨rfl, (Option.some.inj h).symm⟩
  obtain ⟨rfl, h⟩ := hone rfl h
  rcases p with _ | ⟨i, p⟩
  · exact .inr (.inl ⟨rfl, (Option.some.inj h).symm⟩)
  obtain ⟨rfl, h⟩ := hone (t := 1) rfl h
  rcases p with _ | ⟨i, p⟩
  · exact .inr (.inr (.inl ⟨rfl, (Option.some.inj h).symm⟩))
  obtain ⟨rfl, h⟩ := hone (t := 2) rfl h
  rcases p with _ | ⟨i, p⟩
  · exact .inr (.inr (.inr ⟨rfl, (Option.some.inj h).symm⟩))
  · cases h

theorem smallKernel_sound : Sound smallKernel (· = 0) 2 := by
  refine ⟨rfl, ?_, ?_, ?_, ?_, ?_, ?_, ?_, by decide⟩
  · rintro r rfl
    rfl
  · rintro r p t rfl hp
    rcases smallKernel_follow hp with ⟨-, rfl⟩ | ⟨-, rfl⟩ | ⟨-, rfl⟩ | ⟨-, rfl⟩ <;> rfl
  · rintro r r' p p' t rfl rfl hp hp'
    have hpp : p = p' := by
      rcases smallKernel_follow hp with ⟨rfl, rfl⟩ | ⟨rfl, rfl⟩ | ⟨rfl, rfl⟩ | ⟨rfl, rfl⟩ <;>
        rcases smallKernel_follow hp' with ⟨rfl, h⟩ | ⟨rfl, h⟩ | ⟨rfl, h⟩ | ⟨rfl, h⟩ <;>
          first | rfl | cases h
    rw [hpp]
  · rintro r p t rfl hp
    rcases smallKernel_follow hp with ⟨rfl, -⟩ | ⟨rfl, -⟩ | ⟨rfl, -⟩ | ⟨rfl, -⟩ <;> simp
  · rintro r p t n i rfl hp hn hlen hnone
    rcases smallKernel_follow hp with ⟨-, rfl⟩ | ⟨-, rfl⟩ | ⟨-, rfl⟩ | ⟨rfl, -⟩
    · cases hn
      exact oneSlot_absent hnone
    · cases hn
      exact oneSlot_absent hnone
    · cases hn
      exact oneSlot_absent hnone
    · simp at hlen
  · intro t ht
    match t, ht with
    | 0, _ | 1, _ | 2, _ | 3, _ => rfl
  · intro b hb
    obtain ⟨i, hi, rfl⟩ := mem_map.mp hb
    have hi' := mem_range.mp hi
    refine ⟨?_, rfl⟩
    show (List.replicate 20 true)[i + 4]? = some true
    rw [List.getElem?_replicate, if_pos (by omega)]

theorem smallKernel_pte (v : VAddr) (hp : (pte smallKernel 0 v).p = true) :
    path v = [511, 511, 256] ∧ index 0 v < 40 ∧ (pte smallKernel 0 v).base = 8 + index 0 v := by
  cases hf : follow smallKernel.tables 0 (path v) with
  | none =>
    rw [pte, leaf_of_none hf] at hp
    cases hp
  | some t =>
    rcases smallKernel_follow hf with ⟨hc, -⟩ | ⟨hc, -⟩ | ⟨hc, -⟩ | ⟨hpath, rfl⟩
    · cases congrArg List.length hc
    · cases congrArg List.length hc
    · cases congrArg List.length hc
    · have hentry : pte smallKernel 0 v
          = if index 0 v < 40 then ⟨true, true, false, true, 8 + index 0 v⟩ else .zero :=
        leaf_of_follow hf rfl
      rw [hentry] at hp ⊢
      split at hp
      · rename_i hlt
        rw [if_pos hlt]
        exact ⟨hpath, hlt, rfl⟩
      · cases hp

end Flix.Paging

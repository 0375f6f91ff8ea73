import Flix.Memory.KHeap
import Flix.Lib.Tiling
import Mathlib.Tactic.Common

/-!
# What the heap operations do to the blocks

`Tiled h bs` is the picture the heap keeps: the blocks `bs` lie end to end from
`m_heapStart` to `m_heapEnd`, none is shorter than `BLOCK_MIN_SIZE`, and
`m_lastBlock` is the last of them. This file follows that picture through each
operation. A header write is first reduced to what it says about sizes and
`used` bits, so that nothing below looks inside a header word again.
-/

namespace Flix.KHeap

open Bytes Tiling

/-! ## Headers -/

variable {m : Mem} {b x : Nat} {h : Heap} {bs : List Nat}

theorem getSize_congr {m' : Mem} (h : ∀ x, b ≤ x → x < b + 4 → m' x = m x) :
    getSize m' b = getSize m b := by
  unfold getSize; rw [readLE_congr h]

theorem getUsed_congr {m' : Mem} (h : ∀ x, b ≤ x → x < b + 4 → m' x = m x) :
    getUsed m' b = getUsed m b := by
  unfold getUsed; rw [readLE_congr h]

theorem getSize_lt (m : Mem) (b : Nat) : getSize m b < 2 ^ 32 := by
  have := readLE_lt m 4 b
  unfold getSize BLOCK_ALIGN_SHIFT
  omega

theorem getSize_mod (m : Mem) (b : Nat) : getSize m b % BLOCK_ALIGN = 0 := by
  unfold getSize BLOCK_ALIGN_SHIFT BLOCK_ALIGN
  omega

@[simp] theorem getSize_setUsed (m : Mem) (b : Nat) (u : Bool) :
    getSize (setUsed m b u) b = getSize m b := by
  have := readLE_lt m 4 b
  unfold getSize setUsed BLOCK_ALIGN_SHIFT
  rw [readLE_writeLE_self]
  cases u <;> simp only [Bool.toNat_false, Bool.toNat_true] <;> omega

@[simp] theorem getUsed_setUsed (m : Mem) (b : Nat) (u : Bool) :
    getUsed (setUsed m b u) b = u := by
  unfold getUsed setUsed
  rw [readLE_writeLE_self]
  cases u <;> simp only [Bool.toNat_false, Bool.toNat_true, beq_iff_eq, beq_eq_false_iff_ne] <;> omega

theorem setUsed_outside {u : Bool} (h : x < b ∨ b + 4 ≤ x) :
    setUsed m b u x = m x := writeLE_outside h

/-- A successful `setSize`: the new size, the old `used` bit, and nothing else touched. -/
theorem setSize_spec {n : Nat} (hn : n % BLOCK_ALIGN = 0) (hlt : n < 2 ^ 32) :
    ∃ m', setSize m b n = some m' ∧ getSize m' b = n ∧ getUsed m' b = getUsed m b
      ∧ ∀ x, x < b ∨ b + 4 ≤ x → m' x = m x := by
  refine ⟨writeLE m b 4 (n / 2 ^ BLOCK_ALIGN_SHIFT * 2 ^ BLOCK_ALIGN_SHIFT + readLE m b 4 % 4),
    by unfold setSize; rw [assert_pos hn]; rfl, ?_, ?_, fun x hx => writeLE_outside hx⟩
  · unfold BLOCK_ALIGN at hn
    unfold getSize BLOCK_ALIGN_SHIFT
    rw [readLE_writeLE_self]
    omega
  · unfold getUsed BLOCK_ALIGN_SHIFT
    rw [readLE_writeLE_self]
    congr 1
    omega

theorem sub32_of_le {a : Nat} (ha : a < 2 ^ 32) (h : b ≤ a) : sub32 a b = a - b := by
  unfold sub32; omega

/-! ## The picture -/

/-- The blocks `bs` lie end to end from the start of the heap to its end. -/
structure Tiled (h : Heap) (bs : List Nat) : Prop where
  /-- The walk by `getSize` ends exactly at `m_heapEnd`. -/
  tiles : Tiles (getSize h.mem) h.heapStart bs h.heapEnd
  /-- No block is shorter than `BLOCK_MIN_SIZE`. -/
  min : ∀ b ∈ bs, BLOCK_MIN_SIZE ≤ getSize h.mem b
  /-- `m_lastBlock` is the last block. -/
  last : ∃ front, bs = front ++ [h.lastBlock]
  /-- The heap grows by whole pages. -/
  page : h.heapEnd % PAGE_SIZE = 0

theorem Tiled.last_mem (ht : Tiled h bs) : h.lastBlock ∈ bs := by
  obtain ⟨front, hb⟩ := ht.last
  rw [hb]; simp

theorem Tiled.last_end (ht : Tiled h bs) : h.lastBlock + getSize h.mem h.lastBlock = h.heapEnd := by
  obtain ⟨front, hb⟩ := ht.last
  have := ht.tiles
  rw [hb] at this
  exact this.last_end

theorem Tiled.le_last (ht : Tiled h bs) (hb : b ∈ bs) : b ≤ h.lastBlock := by
  obtain ⟨front, hbs⟩ := ht.last
  have := ht.tiles
  rw [hbs] at this hb
  exact this.mem_le_last hb

/-- Blocks are found again in a memory that agrees on their headers. -/
theorem Tiled.of_same_headers {h' : Heap} (ht : Tiled h bs)
    (hs : ∀ b ∈ bs, getSize h'.mem b = getSize h.mem b) (h1 : h'.heapStart = h.heapStart)
    (h2 : h'.heapEnd = h.heapEnd) (h3 : h'.lastBlock = h.lastBlock) : Tiled h' bs := by
  refine ⟨?_, ?_, ?_, ?_⟩
  · rw [h1, h2]; exact ht.tiles.frame hs
  · intro b hb; rw [hs b hb]; exact ht.min b hb
  · rw [h3]; exact ht.last
  · rw [h2]; exact ht.page

/-- A block's header lies below the end of the heap. -/
theorem Tiled.header_below (ht : Tiled h bs) (hb : b ∈ bs) (hx : x < b + 4) : x < h.heapEnd := by
  have := ht.min b hb
  have := (ht.tiles.mem_bounds hb).2
  unfold BLOCK_MIN_SIZE HEADER_SIZE at *
  omega

theorem Tiled.header_apart (ht : Tiled h bs) {c : Nat}
    (hb : b ∈ bs) (hc : c ∈ bs) (hne : c ≠ b) (h1 : c ≤ x) (h2 : x < c + 4) :
    x < b ∨ b + 4 ≤ x := by
  have hmb := ht.min b hb
  have hmc := ht.min c hc
  unfold BLOCK_MIN_SIZE HEADER_SIZE at hmb hmc
  rcases ht.tiles.disjoint hb hc (Ne.symm hne) with hd | hd <;> omega

/-- A block occurs once: everything before and after it is another one. -/
theorem Tiled.ne_of_split {front back : List Nat} {c : Nat}
    (ht : Tiled h (front ++ b :: back)) (hc : c ∈ front ∨ c ∈ back) : c ≠ b := by
  intro he
  subst he
  have hp := ht.tiles.pairwise
  have hm := ht.min c (by simp)
  unfold BLOCK_MIN_SIZE HEADER_SIZE at hm
  rw [List.pairwise_append, List.pairwise_cons] at hp
  rcases hc with hc | hc
  · have := hp.2.2 c hc c mem_cons_self; omega
  · have := hp.2.1.1 c hc; omega

/-- `setUsed` on one block leaves every block's size alone. -/
theorem Tiled.setUsed (ht : Tiled h bs) (hb : b ∈ bs)
    (u : Bool) : Tiled { h with mem := KHeap.setUsed h.mem b u } bs := by
  refine ht.of_same_headers ?_ rfl rfl rfl
  intro c hc
  by_cases hcb : c = b
  · subst hcb; exact getSize_setUsed h.mem c u
  · exact getSize_congr (fun x h1 h2 => setUsed_outside (ht.header_apart hb hc hcb h1 h2))

/-! ## The search -/

/-- The block can hold the request: free, and strictly larger. -/
def Fits (m : Mem) (size b : Nat) : Prop := getUsed m b = false ∧ size < getSize m b

instance (m : Mem) (size b : Nat) : Decidable (Fits m size b) := by
  unfold Fits; infer_instance

/-- What the loop answers when it stops at `b`. -/
def Search.at (m : Mem) (size b : Nat) : Search :=
  if sub32 (getSize m b) BLOCK_MIN_SIZE ≤ size then .take b else .split b

/--
The search is a first fit. From `ptr` on it stops at the first block that
fits, and otherwise runs off the end having looked at the last one. The
induction is on the blocks still ahead.
-/
theorem search_spec (size : Nat) : ∀ {r : List Nat} (fuel block : Nat) {ptr : Nat},
    Tiles (getSize h.mem) ptr r h.heapEnd → (∀ b ∈ r, BLOCK_MIN_SIZE ≤ getSize h.mem b) →
    (∀ b ∈ r, b ≤ h.lastBlock) → h.heapEnd - ptr < fuel →
    (∃ front b back, r = front ++ b :: back ∧ (∀ c ∈ front, ¬ Fits h.mem size c)
        ∧ Fits h.mem size b ∧ search h size fuel block ptr = some (Search.at h.mem size b))
      ∨ ((∀ c ∈ r, ¬ Fits h.mem size c)
        ∧ search h size fuel block ptr = some (.exhausted (r.getLastD block)))
  | [], fuel + 1, block, ptr, ht, _, _, _ => by
    refine Or.inr ⟨by simp, ?_⟩
    rw [search, if_neg (by rw [ht]; omega)]
    rfl
  | b :: r, fuel + 1, block, ptr, ht, hmin, hlast, hf => by
    obtain ⟨rfl, ht⟩ := ht
    have hb := hmin b mem_cons_self
    have hle := ht.le
    have hpos : 8 ≤ getSize h.mem b := hb
    rw [search, if_pos (by omega)]
    simp only [assert_pos hb, assert_pos (hlast b mem_cons_self), bind_eq_bind,
      bind_some]
    by_cases hfit : Fits h.mem size b
    · refine Or.inl ⟨[], b, r, rfl, by simp, hfit, ?_⟩
      rw [if_pos (show getUsed h.mem b = false ∧ size < getSize h.mem b from hfit)]
      unfold Search.at
      split <;> rfl
    · rw [if_neg (show ¬ (getUsed h.mem b = false ∧ size < getSize h.mem b) from hfit)]
      rcases search_spec size fuel b ht
          (fun c hc => hmin c (mem_cons_of_mem _ hc))
          (fun c hc => hlast c (mem_cons_of_mem _ hc)) (by omega) with
        ⟨front, c, back, hr, hno, hc, hs⟩ | ⟨hno, hs⟩
      · refine Or.inl ⟨b :: front, c, back, by rw [hr]; rfl, ?_, hc, hs⟩
        intro d hd
        rcases mem_cons.mp hd with rfl | hd
        · exact hfit
        · exact hno d hd
      · refine Or.inr ⟨?_, ?_⟩
        · intro d hd
          rcases mem_cons.mp hd with rfl | hd
          · exact hfit
          · exact hno d hd
        · rw [hs, List.getLastD_cons]

theorem searchAll_spec (size : Nat) (ht : Tiled h bs) :
    (∃ front b back, bs = front ++ b :: back ∧ (∀ c ∈ front, ¬ Fits h.mem size c)
        ∧ Fits h.mem size b ∧ searchAll h size = some (Search.at h.mem size b))
      ∨ ((∀ c ∈ bs, ¬ Fits h.mem size c)
        ∧ searchAll h size = some (.exhausted h.lastBlock)) := by
  rcases search_spec size (h.heapEnd - h.heapStart + 1) 0 ht.tiles ht.min (fun b hb => ht.le_last hb) (by omega) with hl | ⟨hno, hs⟩
  · exact Or.inl hl
  · refine Or.inr ⟨hno, ?_⟩
    obtain ⟨front, hbs⟩ := ht.last
    rw [searchAll, hs, hbs]
    simp

end Flix.KHeap

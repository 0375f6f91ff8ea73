import Mathlib.Data.List.Basic

/-!
# Blocks laid end to end

`Tiles sz a l e` says that the blocks of `l`, the first at `a` and each next one
where the one before ends, reach exactly `e`; `sz b` is the size of the block at
`b`. It is the picture behind every allocator that finds the next block by
adding a size to an address.

An allocator changes such a picture in three ways, and there is one lemma for
each: a block is cut in two (`Tiles.split`), the last one grows
(`Tiles.grow`), or a new one is put behind it (`Tiles.snoc`).
-/

namespace Flix.Tiling

/-- The blocks of `l`, laid end to end from `a`, reach exactly `e`. -/
def Tiles (sz : Nat → Nat) : Nat → List Nat → Nat → Prop
  | a, [], e => a = e
  | a, b :: l, e => b = a ∧ Tiles sz (a + sz a) l e

variable {sz sz' : Nat → Nat}

theorem tiles_append : ∀ {l r : List Nat} {a e : Nat},
    Tiles sz a (l ++ r) e ↔ ∃ m, Tiles sz a l m ∧ Tiles sz m r e
  | [], r, a, e => by simp [Tiles]
  | b :: l, r, a, e => by
    simp only [List.cons_append, Tiles, tiles_append (l := l)]
    constructor
    · rintro ⟨hb, m, h1, h2⟩
      exact ⟨m, ⟨hb, h1⟩, h2⟩
    · rintro ⟨m, ⟨hb, h1⟩, h2⟩
      exact ⟨hb, m, h1, h2⟩

/-- Only the sizes of the blocks themselves matter. -/
theorem Tiles.frame : ∀ {l : List Nat} {a e : Nat},
    Tiles sz a l e → (∀ b ∈ l, sz' b = sz b) → Tiles sz' a l e
  | [], _, _, h, _ => h
  | b :: l, a, e, h, hsz => by
    obtain ⟨rfl, h⟩ := h
    refine ⟨rfl, ?_⟩
    rw [hsz b List.mem_cons_self]
    exact h.frame (fun c hc => hsz c (List.mem_cons_of_mem _ hc))

theorem Tiles.le : ∀ {l : List Nat} {a e : Nat}, Tiles sz a l e → a ≤ e
  | [], _, _, h => Nat.le_of_eq h
  | _ :: _, _, _, h => Nat.le_trans (Nat.le_add_right _ _) h.2.le

theorem Tiles.mem_bounds : ∀ {l : List Nat} {a e b : Nat},
    Tiles sz a l e → b ∈ l → a ≤ b ∧ b + sz b ≤ e
  | c :: l, a, e, b, h, hb => by
    obtain ⟨rfl, h⟩ := h
    rcases List.mem_cons.mp hb with rfl | hb
    · exact ⟨Nat.le_refl _, h.le⟩
    · have := h.mem_bounds hb
      omega

theorem Tiles.pairwise : ∀ {l : List Nat} {a e : Nat},
    Tiles sz a l e → l.Pairwise (fun b c => b + sz b ≤ c)
  | [], _, _, _ => List.Pairwise.nil
  | b :: l, a, e, h => by
    obtain ⟨rfl, h⟩ := h
    exact List.Pairwise.cons (fun c hc => (h.mem_bounds hc).1) h.pairwise

variable {l : List Nat} {a e b n : Nat}

/-- Distinct blocks do not overlap. -/
theorem Tiles.disjoint {c : Nat} (h : Tiles sz a l e)
    (hb : b ∈ l) (hc : c ∈ l) (hne : b ≠ c) : b + sz b ≤ c ∨ c + sz c ≤ b := by
  have hp := h.pairwise
  obtain ⟨l1, l2, rfl⟩ := List.append_of_mem hb
  rw [List.pairwise_append] at hp
  obtain ⟨_, h2, h3⟩ := hp
  rw [List.pairwise_cons] at h2
  rcases List.mem_append.mp hc with hc | hc
  · exact Or.inr (h3 c hc b List.mem_cons_self)
  · rcases List.mem_cons.mp hc with rfl | hc
    · exact absurd rfl hne
    · exact Or.inl (h2.1 c hc)

/-- Cutting a block in two keeps the tiling. -/
theorem Tiles.split {r : List Nat} (h : Tiles sz a (l ++ b :: r) e)
    (hn : n ≤ sz b) (hb : sz' b = n) (hc : sz' (b + n) = sz b - n)
    (hl : ∀ c ∈ l, sz' c = sz c) (hr : ∀ c ∈ r, sz' c = sz c) :
    Tiles sz' a (l ++ b :: (b + n) :: r) e := by
  rw [tiles_append] at h ⊢
  obtain ⟨m, h1, rfl, h2⟩ := h
  refine ⟨b, h1.frame hl, rfl, by rw [hb], ?_⟩
  have he : b + sz' b + sz' (b + sz' b) = b + sz b := by rw [hb]; omega
  rw [he]
  exact h2.frame hr

/-- Growing the last block moves the end of the tiling. -/
theorem Tiles.grow (h : Tiles sz a (l ++ [b]) e)
    (hb : sz' b = sz b + n) (hl : ∀ c ∈ l, sz' c = sz c) : Tiles sz' a (l ++ [b]) (e + n) := by
  rw [tiles_append] at h ⊢
  obtain ⟨m, h1, rfl, h2⟩ := h
  refine ⟨b, h1.frame hl, rfl, ?_⟩
  simp only [Tiles] at h2 ⊢
  omega

/-- A new block behind the last extends the tiling by its size. -/
theorem Tiles.snoc (h : Tiles sz a l e)
    (he : sz' e = n) (hl : ∀ c ∈ l, sz' c = sz c) : Tiles sz' a (l ++ [e]) (e + n) := by
  rw [tiles_append]
  exact ⟨e, h.frame hl, rfl, by rw [Tiles, he]⟩

theorem Tiles.last_end (h : Tiles sz a (l ++ [b]) e) : b + sz b = e := by
  rw [tiles_append] at h
  obtain ⟨m, _, rfl, h2⟩ := h
  exact h2

theorem Tiles.mem_le_last {c : Nat} (h : Tiles sz a (l ++ [b]) e) (hc : c ∈ l ++ [b]) : c ≤ b := by
  rcases List.mem_append.mp hc with hc | hc
  · have hp := h.pairwise
    rw [List.pairwise_append] at hp
    have := hp.2.2 c hc b List.mem_cons_self
    omega
  · exact Nat.le_of_eq (List.mem_singleton.mp hc)

end Flix.Tiling

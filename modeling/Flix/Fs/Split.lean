import Mathlib.Data.List.Basic

/-!
# Splitting

One loop of `split` serves both modes. Without `merge` it is the inverse of joining with the
separator. With `merge` it leaves out the empty strings, and what is left are the longest
runs of other bytes.
-/

namespace Flix.Fs

abbrev Str := List UInt8

/-- The loop of `split`, with the bytes since `lastiter`. -/
def splitLoop (val : UInt8) (merge : Bool) : Str → Str → List Str
  | last, [] => if last ≠ [] ∨ merge = false then [last] else []
  | last, c :: str =>
    if c = val then
      (if merge = false ∨ last ≠ [] then [last] else []) ++ splitLoop val merge [] str
    else splitLoop val merge (last ++ [c]) str

def split (str : Str) (val : UInt8) (merge : Bool) : List Str := splitLoop val merge [] str

variable {s last str p : Str} {c val : UInt8} {merge : Bool} {i j lastiter iter : Nat}
  {x : Nat × Nat}

/-! ## Joining -/

/-- What the loop puts out when a string ends: the string, or nothing. -/
theorem mem_out {α : Type} {b : Prop} [Decidable b] {a p : α} (h : p ∈ if b then [a] else []) :
    b ∧ p = a := by
  split at h
  · rename_i hb
    exact ⟨hb, List.mem_singleton.mp h⟩
  · exact absurd h List.not_mem_nil

theorem mem_splitLoop (hp : p ∈ splitLoop val merge last str) (hc : c ∈ p) :
    c ∈ last ∨ c ∈ str ∧ c ≠ val := by
  induction str generalizing last with
  | nil =>
    rw [(mem_out hp).2] at hc
    exact .inl hc
  | cons d str ih =>
    rw [splitLoop] at hp
    split at hp
    · rcases List.mem_append.mp hp with hp | hp
      · rw [(mem_out hp).2] at hc
        exact .inl hc
      · obtain ⟨hmem, hne⟩ := (ih hp).resolve_left List.not_mem_nil
        exact .inr ⟨List.mem_cons_of_mem _ hmem, hne⟩
    · rename_i hd
      rcases ih hp with h | ⟨hmem, hne⟩
      · rcases List.mem_append.mp h with h | h
        · exact .inl h
        · obtain rfl := List.mem_singleton.mp h
          exact .inr ⟨List.mem_cons_self, hd⟩
      · exact .inr ⟨List.mem_cons_of_mem _ hmem, hne⟩

theorem split_free (hp : p ∈ split s val merge) : val ∉ p := by
  intro hc
  rcases mem_splitLoop hp hc with h | ⟨-, hne⟩
  · exact absurd h List.not_mem_nil
  · exact hne rfl

theorem split_append (a b : Str) (val : UInt8) (merge : Bool) :
    split (a ++ val :: b) val merge = split a val merge ++ split b val merge := by
  have hloop : ∀ last, splitLoop val merge last (a ++ val :: b)
      = splitLoop val merge last a ++ split b val merge := by
    induction a with
    | nil =>
      intro last
      rw [List.nil_append, splitLoop, splitLoop, if_pos rfl]
      simp only [or_comm, split]
    | cons c a ih =>
      intro last
      rw [List.cons_append, splitLoop, splitLoop, ih, ih]
      split
      · rw [List.append_assoc]
      · rfl
  exact hloop []

/-- Without `merge` the loop splits at every separator. -/
theorem split_eq_splitOn (s : Str) (val : UInt8) : split s val false = s.splitOn val := by
  have hloop : ∀ last, val ∉ last → splitLoop val false last s = (last ++ s).splitOn val := by
    induction s with
    | nil =>
      intro last hlast
      rw [splitLoop, if_pos (.inr rfl), List.append_nil, List.splitOn_eq_singleton hlast]
    | cons b str ih =>
      intro last hlast
      rw [splitLoop]
      split
      · rename_i hb
        rw [ih [] List.not_mem_nil, hb,
          List.splitOn_append_cons_self_of_not_mem hlast]
        rfl
      · rename_i hb
        have hnext : val ∉ last ++ [b] := by
          simp only [List.mem_append, List.mem_singleton, not_or]
          exact ⟨hlast, fun hc => hb hc.symm⟩
        rw [ih _ hnext, List.append_assoc]
        rfl
  exact hloop [] List.not_mem_nil

theorem split_ne_nil (s : Str) (val : UInt8) : split s val false ≠ [] := by
  rw [split_eq_splitOn]
  exact List.splitOnP_ne_nil _ s

theorem intercalate_split (s : Str) (val : UInt8) : [val].intercalate (split s val false) = s := by
  rw [split_eq_splitOn, List.intercalate_splitOn]

theorem split_intercalate {ps : List Str} (hne : ps ≠ []) (hfree : ∀ p ∈ ps, val ∉ p) :
    split ([val].intercalate ps) val false = ps := by
  rw [split_eq_splitOn, List.splitOn_intercalate val hfree hne]

theorem split_merge (s : Str) (val : UInt8) :
    split s val true = (split s val false).filter (· ≠ []) := by
  have hloop : ∀ last, splitLoop val true last s = (splitLoop val false last s).filter (· ≠ []) := by
    induction s with
    | nil =>
      intro last
      by_cases hl : last = [] <;> simp [splitLoop, hl]
    | cons b str ih =>
      intro last
      rw [splitLoop, splitLoop]
      split
      · rw [ih]
        by_cases hl : last = [] <;> simp [hl]
      · exact ih _
  exact hloop []

/-! ## Segments -/

/-- The bytes from `i` up to `j`, of which none is `c`. -/
structure Free (s : Str) (c : UInt8) (i j : Nat) : Prop where
  lt : i < j
  le : j ≤ s.length
  free : ∀ k, i ≤ k → k < j → s[k]? ≠ some c

/-- There is no longer one around it. -/
def Longest (s : Str) (c : UInt8) (x : Nat × Nat) : Prop :=
  Free s c x.1 x.2 ∧ ∀ i j, Free s c i j → i ≤ x.1 → x.2 ≤ j → (i, j) = x

def segment (s : Str) (x : Nat × Nat) : Str := (s.drop x.1).take (x.2 - x.1)

/-- The strings are the longest runs without a separator, from left to right. -/
def Segments (s : Str) (c : UInt8) (ps : List Str) : Prop :=
  ∃ xs : List (Nat × Nat), xs.Pairwise (fun x y => x.2 < y.1) ∧ (∀ x, x ∈ xs ↔ Longest s c x) ∧
    ps = xs.map (segment s)

/-- The loop of `split` with `merge`, on the iterators alone. -/
def spans (c : UInt8) : Nat → Nat → Str → List (Nat × Nat)
  | lastiter, iter, [] => if lastiter ≠ iter then [(lastiter, iter)] else []
  | lastiter, iter, b :: str =>
    if b = c then
      (if lastiter ≠ iter then [(lastiter, iter)] else []) ++ spans c (iter + 1) (iter + 1) str
    else spans c lastiter (iter + 1) str

/-- `i` is where a string starts. -/
def Starts (s : Str) (c : UInt8) (i : Nat) : Prop := i = 0 ∨ s[i - 1]? = some c

/-- `j` is where a string ends. -/
def Ends (s : Str) (c : UInt8) (j : Nat) : Prop := j = s.length ∨ s[j]? = some c

theorem Longest.starts (h : Longest s c x) : Starts s c x.1 := by
  by_contra hc
  obtain ⟨hpos, hne⟩ := not_or.mp hc
  have hlt := h.1.lt
  have hlonger : Free s c (x.1 - 1) x.2 := by
    refine ⟨by omega, h.1.le, fun k hk hk' => ?_⟩
    rcases Nat.eq_or_lt_of_le hk with rfl | hk
    · exact hne
    · exact h.1.free k (by omega) hk'
  have heq : x.1 - 1 = x.1 := congrArg Prod.fst (h.2 _ _ hlonger (by omega) (Nat.le_refl _))
  omega

theorem Longest.ends (h : Longest s c x) : Ends s c x.2 := by
  by_contra hc
  obtain ⟨hlen, hne⟩ := not_or.mp hc
  have hlt := h.1.lt
  have hle := h.1.le
  have hlonger : Free s c x.1 (x.2 + 1) := by
    refine ⟨by omega, by omega, fun k hk hk' => ?_⟩
    rcases Nat.eq_or_lt_of_le (Nat.le_of_lt_succ hk') with rfl | hk'
    · exact hne
    · exact h.1.free k hk hk'
  have heq : x.2 + 1 = x.2 := congrArg Prod.snd (h.2 _ _ hlonger (Nat.le_refl _) (by omega))
  omega

theorem Free.longest (h : Free s c i j) (hi : Starts s c i) (hj : Ends s c j) :
    Longest s c (i, j) := by
  refine ⟨h, fun i' j' h' hi' hj' => ?_⟩
  have hlt := h.lt
  have hle := h'.le
  have hstart : i' = i := by
    by_contra hne
    rcases hi with rfl | hi
    · omega
    · exact h'.free (i - 1) (by omega) (by omega) hi
  have hend : j' = j := by
    by_contra hne
    rcases hj with rfl | hj
    · omega
    · exact h'.free j (by omega) (by omega) hj
  rw [hstart, hend]

/-- What holds at the head of the loop: the string that begins at `lastiter` has no separator up to
`iter`. -/
structure Scan (s : Str) (c : UInt8) (lastiter iter : Nat) (str : Str) : Prop where
  rest : s.drop iter = str
  le : lastiter ≤ iter
  inside : iter ≤ s.length
  starts : Starts s c lastiter
  free : ∀ k, lastiter ≤ k → k < iter → s[k]? ≠ some c

section

variable {b : UInt8}

theorem Scan.head (h : Scan s c lastiter iter (b :: str)) : s[iter]? = some b := by
  rw [← List.head?_drop, h.rest]
  rfl

theorem Scan.drop (h : Scan s c lastiter iter (b :: str)) :
    s.drop (iter + 1) = str ∧ iter < s.length := by
  refine ⟨?_, (List.getElem?_eq_some_iff.mp h.head).1⟩
  rw [← List.drop_drop, h.rest]
  rfl

theorem Scan.restart (h : Scan s c lastiter iter (c :: str)) : Scan s c (iter + 1) (iter + 1) str :=
  ⟨h.drop.1, Nat.le_refl _, h.drop.2, .inr h.head, fun k hk hk' => absurd hk' (by omega)⟩

theorem Scan.next (h : Scan s c lastiter iter (b :: str)) (hb : b ≠ c) :
    Scan s c lastiter (iter + 1) str := by
  refine ⟨h.drop.1, Nat.le_succ_of_le h.le, h.drop.2, h.starts, fun k hk hk' => ?_⟩
  rcases Nat.eq_or_lt_of_le (Nat.le_of_lt_succ hk') with rfl | hk'
  · rw [h.head]
    exact fun hc => hb (Option.some.inj hc)
  · exact h.free k hk hk'

theorem Scan.segment_next (h : Scan s c lastiter iter (b :: str)) :
    segment s (lastiter, iter + 1) = segment s (lastiter, iter) ++ [b] := by
  have hle := h.le
  have hhead : (s.drop lastiter)[iter - lastiter]? = some b := by
    rw [List.getElem?_drop, Nat.add_sub_cancel' hle, h.head]
  simp only [segment]
  rw [Nat.sub_add_comm hle, List.take_add_one, hhead]
  rfl

end

theorem Scan.segment_ne (h : Scan s c lastiter iter str) :
    segment s (lastiter, iter) ≠ [] ↔ lastiter ≠ iter := by
  have hle := h.le
  have hin := h.inside
  rw [Ne, ← List.length_eq_zero_iff, segment, List.length_take, List.length_drop]
  omega

/-- At the end of a string: it is the one segment that starts here. -/
theorem Scan.mem_out (h : Scan s c lastiter iter str) (hend : Ends s c iter) :
    (x ∈ if lastiter ≠ iter then [(lastiter, iter)] else []) ↔
      Longest s c x ∧ lastiter ≤ x.1 ∧ x.1 ≤ iter := by
  have hle := h.le
  have hin := h.inside
  constructor
  · intro hx
    obtain ⟨hne, rfl⟩ := Fs.mem_out hx
    have hfree : Free s c lastiter iter := ⟨by omega, hin, h.free⟩
    exact ⟨hfree.longest h.starts hend, Nat.le_refl _, hle⟩
  · intro ⟨hmax, hfrom, hto⟩
    have hlt := hmax.1.lt
    have hlen := hmax.1.le
    have hstart : x.1 = lastiter := by
      by_contra hne
      rcases hmax.starts with h0 | hc
      · omega
      · exact h.free (x.1 - 1) (by omega) (by omega) hc
    have hend' : x.2 = iter := by
      rcases Nat.lt_trichotomy x.2 iter with hx | hx | hx
      · rcases hmax.ends with hx' | hc
        · omega
        · exact absurd hc (h.free x.2 (by omega) hx)
      · exact hx
      · rcases hend with he | hc
        · omega
        · exact absurd hc (hmax.1.free iter hto hx)
    rw [if_pos (by omega), List.mem_singleton, ← hstart, ← hend']

theorem Scan.mem_spans (h : Scan s c lastiter iter str) :
    x ∈ spans c lastiter iter str ↔ Longest s c x ∧ lastiter ≤ x.1 := by
  induction str generalizing lastiter iter with
  | nil =>
    have hlen : iter = s.length := Nat.le_antisymm h.inside (List.drop_eq_nil_iff.mp h.rest)
    rw [spans, h.mem_out (.inl hlen)]
    refine and_congr_right fun hmax => and_iff_left_of_imp fun _ => ?_
    have hlt := hmax.1.lt
    have hle := hmax.1.le
    omega
  | cons b str ih =>
    rw [spans]
    split
    · rename_i hb
      subst hb
      rw [List.mem_append, h.mem_out (.inr h.head), ih h.restart, ← and_or_left]
      have hle := h.le
      exact and_congr_right fun _ => by omega
    · rename_i hb
      exact ih (h.next hb)

theorem Scan.spans_ordered (h : Scan s c lastiter iter str) :
    (spans c lastiter iter str).Pairwise fun x y => x.2 < y.1 := by
  have hone : ∀ l i : Nat, (if l ≠ i then [(l, i)] else []).Pairwise
      fun x y : Nat × Nat => x.2 < y.1 := by
    intro l i
    split
    · exact List.pairwise_singleton ..
    · exact List.Pairwise.nil
  induction str generalizing lastiter iter with
  | nil => exact hone _ _
  | cons b str ih =>
    rw [spans]
    split
    · rename_i hb
      subst hb
      refine List.pairwise_append.mpr ⟨hone _ _, ih h.restart, fun x hx y hy => ?_⟩
      rw [(Fs.mem_out hx).2]
      exact (h.restart.mem_spans.mp hy).2
    · rename_i hb
      exact ih (h.next hb)

/-- The strings of the loop are the bytes between its iterators. -/
theorem Scan.splitLoop_eq (h : Scan s c lastiter iter str) :
    splitLoop c true (segment s (lastiter, iter)) str
      = (spans c lastiter iter str).map (segment s) := by
  induction str generalizing lastiter iter with
  | nil =>
    rw [splitLoop, spans]
    simp only [h.segment_ne, Bool.true_eq_false, or_false]
    split <;> rfl
  | cons b str ih =>
    rw [splitLoop, spans]
    split
    · rename_i hb
      subst hb
      have hempty : segment s (iter + 1, iter + 1) = [] := by simp [segment]
      simp only [h.segment_ne, Bool.true_eq_false, false_or]
      rw [List.map_append, ← ih h.restart, hempty]
      split <;> rfl
    · rename_i hb
      rw [← ih (h.next hb), h.segment_next]

/-- Splitting with `merge` finds all segments. -/
theorem split_segments (s : Str) (c : UInt8) : Segments s c (split s c true) := by
  have h : Scan s c 0 0 s :=
    ⟨rfl, Nat.le_refl 0, Nat.zero_le _, .inl rfl, fun k _ hk => absurd hk (Nat.not_lt_zero k)⟩
  refine ⟨spans c 0 0 s, h.spans_ordered, fun x => ?_, h.splitLoop_eq⟩
  rw [h.mem_spans]
  exact and_iff_left (Nat.zero_le _)

end Flix.Fs

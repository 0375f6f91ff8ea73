import Mathlib.Data.List.Nodup
import Mathlib.Logic.Function.Basic

/-!
# Intrusive first-in first-out lists

A queue threaded through its elements: the queue itself is two pointers, and
the link to the successor is a field of each element, kept here as a function
`next`. Elements of several queues share one `next`, since an element sits in
one queue at a time.

`Represents next q l` says that the pointers of `q` thread exactly the list
`l`. Appending and removing are then the list operations, and a queue whose
elements are not touched keeps its list.
-/

namespace Flix.Fifo

open Function

variable {α : Type}

/-- The two ends of a queue. -/
structure Ends (α : Type) where
  first : Option α
  last : Option α
  deriving DecidableEq

/-- The queue with nothing in it. -/
def Ends.empty : Ends α := { first := none, last := none }

/-- Appends `x`, whose own link is null. -/
def Ends.push (q : Ends α) (x : α) : Ends α :=
  match q.last with
  | some _ => { q with last := some x }
  | none => { first := some x, last := some x }

/-- The links after appending `x`. -/
def Ends.pushNext [DecidableEq α] (q : Ends α) (next : α → Option α) (x : α) : α → Option α :=
  match q.last with
  | some y => update (update next x none) y (some x)
  | none => update next x none

/-- Removes the first element, if there is one. -/
def Ends.pop [DecidableEq α] (q : Ends α) (next : α → Option α) : Ends α :=
  { first := q.first.bind next
    last := if q.first = q.last then none else q.last }

/-- Follows the links from `a`, for at most `fuel` elements. -/
def follow (next : α → Option α) : Nat → Option α → Option (List α)
  | _, none => some []
  | 0, some _ => none
  | fuel + 1, some a => (follow next fuel (next a)).map (a :: ·)

/-- Each element of the list links to the one after it, the last to nothing. -/
def Linked (next : α → Option α) : List α → Prop
  | [] => True
  | a :: l => next a = l.head? ∧ Linked next l

/-- The pointers of `q` thread exactly the list `l`. -/
structure Represents (next : α → Option α) (q : Ends α) (l : List α) : Prop where
  first : q.first = l.head?
  last : q.last = l.getLast?
  linked : Linked next l
  nodup : l.Nodup

variable {next : α → Option α} {x : α} {q : Ends α} {l : List α}

theorem Linked.congr {next' : α → Option α} : ∀ {l : List α}, Linked next l →
    (∀ y ∈ l, next' y = next y) → Linked next' l
  | [], _, _ => trivial
  | a :: l, h, he => by
    refine ⟨?_, h.2.congr (fun y hy => he y (List.mem_cons_of_mem _ hy))⟩
    rw [he a List.mem_cons_self, h.1]

/-- Linking the last element of a list to a new one. -/
theorem Linked.snoc [DecidableEq α] : ∀ {l : List α} {y : α}, Linked next l →
    l.getLast? = some y → l.Nodup → x ∉ l →
    Linked (update (update next x none) y (some x)) (l ++ [x])
  | [], _, _, hl, _, _ => by simp at hl
  | [a], y, _, hl, _, hx => by
    obtain rfl : a = y := by simpa using hl
    have hax : x ≠ a := fun h => hx (by simp [h])
    refine ⟨by simp, ?_, trivial⟩
    rw [update_of_ne hax, update_self]
    rfl
  | a :: b :: l, y, h, hl, hn, hx => by
    have hl' : (b :: l).getLast? = some y := by simpa using hl
    have hy : y ∈ b :: l := List.mem_of_getLast? hl'
    have hay : a ≠ y := fun e => (List.nodup_cons.mp hn).1 (e ▸ hy)
    have hax : a ≠ x := fun e => hx (by simp [e])
    refine ⟨?_, h.2.snoc hl' (List.nodup_cons.mp hn).2
      (fun hm => hx (List.mem_cons_of_mem _ hm))⟩
    rw [update_of_ne hay, update_of_ne hax, h.1]
    rfl

theorem Represents.empty (next : α → Option α) : Represents next Ends.empty [] :=
  ⟨rfl, rfl, trivial, List.nodup_nil⟩

section

variable (h : Represents next q l)
include h

theorem Represents.first_none : q.first = none ↔ l = [] := by
  rw [h.first, List.head?_eq_none_iff]

theorem Represents.last_none : q.last = none ↔ l = [] := by
  rw [h.last, List.getLast?_eq_none_iff]

theorem Represents.of_first (hx : q.first = some x) : ∃ l', l = x :: l' := by
  rw [h.first] at hx
  exact List.head?_eq_some_iff.mp hx

/-- A queue none of whose elements has its link changed keeps its list. -/
theorem Represents.congr {next' : α → Option α} (he : ∀ y ∈ l, next' y = next y) : Represents next' q l :=
  { h with linked := h.linked.congr he }

/-- Appending. -/
theorem Represents.push [DecidableEq α] (hx : x ∉ l) :
    Represents (q.pushNext next x) (q.push x) (l ++ [x]) := by
  have hn : (l ++ [x]).Nodup := by
    rw [List.nodup_append]
    exact ⟨h.nodup, List.nodup_singleton x, fun a ha b hb hab =>
      hx (by rw [List.mem_singleton] at hb; rw [← hb, ← hab]; exact ha)⟩
  unfold Ends.push Ends.pushNext
  cases hl : q.last with
  | none =>
    obtain rfl := h.last_none.mp hl
    exact ⟨rfl, rfl, ⟨by simp, trivial⟩, hn⟩
  | some y =>
    have hly : l.getLast? = some y := by rw [← h.last, hl]
    refine ⟨?_, by simp, h.linked.snoc hly h.nodup hx, hn⟩
    obtain ⟨a, l', rfl⟩ := List.exists_cons_of_ne_nil (List.ne_nil_of_mem (List.mem_of_getLast? hly))
    simpa using h.first

/-- Appending changes the link of the new element and of the old last one. -/
theorem Represents.pushNext_of_notMem [DecidableEq α] {y : α}
    (hy : y ∉ l) (hyx : y ≠ x) : q.pushNext next x y = next y := by
  unfold Ends.pushNext
  cases hl : q.last with
  | none => exact update_of_ne hyx _ _
  | some z =>
    have hz : z ∈ l := List.mem_of_getLast? (by rw [← h.last, hl])
    have hyz : y ≠ z := fun e => hy (e ▸ hz)
    simp only [update_of_ne hyz, update_of_ne hyx]

end

/-- Removing the first element. -/
theorem Represents.pop [DecidableEq α]
    (h : Represents next q (x :: l)) : Represents next (q.pop next) l := by
  have hfirst : q.first = some x := h.first
  refine ⟨?_, ?_, h.linked.2, (List.nodup_cons.mp h.nodup).2⟩
  · rw [Ends.pop, hfirst]
    exact h.linked.1
  · unfold Ends.pop
    rw [hfirst, h.last]
    cases l with
    | nil => simp
    | cons b l =>
      have hne : x ≠ (b :: l).getLast (by simp) := fun e =>
        (List.nodup_cons.mp h.nodup).1 (e ▸ List.getLast_mem _)
      rw [List.getLast?_cons_cons, List.getLast?_eq_some_getLast (by simp)]
      simp [hne]

/-- Following the links from the first element visits the whole list. -/
theorem follow_linked : ∀ {l : List α} (fuel : Nat), Linked next l →
    l.length ≤ fuel → follow next fuel l.head? = some l
  | [], 0, _, _ => rfl
  | [], _ + 1, _, _ => rfl
  | a :: l, fuel + 1, h, hf => by
    simp only [List.head?_cons, follow]
    rw [h.1, follow_linked fuel h.2 (by simpa using hf)]
    rfl

/-- Whatever number of links is enough, it is this list that they give. -/
theorem follow_eq : ∀ {l l' : List α} {fuel : Nat}, Linked next l →
    follow next fuel l.head? = some l' → l' = l
  | [], l', 0, _, h => by cases h; rfl
  | [], l', _ + 1, _, h => by cases h; rfl
  | a :: l, l', 0, _, h => by cases h
  | a :: l, l', fuel + 1, hl, h => by
    simp only [List.head?_cons, follow] at h
    rw [hl.1] at h
    obtain ⟨l1, h1, rfl⟩ := Option.map_eq_some_iff.mp h
    rw [follow_eq hl.2 h1]

theorem Represents.unique {l' : List α}
    (h : Represents next q l) (h' : Represents next q l') : l = l' := by
  have e := follow_linked _ h.linked (Nat.le_max_left _ l'.length)
  have e' := follow_linked _ h'.linked (Nat.le_max_right l.length _)
  rw [← h.first] at e
  rw [← h'.first, e] at e'
  exact Option.some.inj e'

end Flix.Fifo

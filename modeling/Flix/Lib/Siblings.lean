import Mathlib.Data.List.Nodup
import Mathlib.Data.List.Basic

/-!
# Intrusive doubly linked lists

A list threaded through its elements in both directions: a pointer to the first
element, and for each element one to the element behind it and one to the element
before. Elements of several lists share these two functions.

`Represents next prev first l` says that the pointers thread the list `l`. Adding in
front and removing anywhere are then the list operations.
-/

namespace Flix.Siblings

variable {α : Type}

/-- The pointers thread exactly the list `l`. -/
structure Represents (next prev : α → Option α) (first : Option α) (l : List α) : Prop where
  first : first = l.head?
  next : ∀ front x back, l = front ++ x :: back → next x = back.head?
  prev : ∀ front x back, l = front ++ x :: back → prev x = front.getLast?
  nodup : l.Nodup

section

variable {next prev next' prev' : α → Option α} {first : Option α} {l : List α} {x y z : α}

theorem Represents.nil (next prev : α → Option α) : Represents next prev none [] := by
  refine ⟨rfl, fun front x back h => ?_, fun front x back h => ?_, List.nodup_nil⟩ <;> simp at h

/-- Where an element is when another one was taken out between `front` and `back`. -/
theorem split_cases {front back a b : List α} (h : front ++ back = a ++ y :: b) :
    (∃ c, back = c ++ y :: b ∧ a = front ++ c) ∨ (∃ c, front = a ++ y :: c ∧ b = c ++ back) := by
  rcases List.append_eq_append_iff.mp h with ⟨c, ha, hb⟩ | ⟨c, hf, hb⟩
  · exact .inl ⟨c, hb, ha⟩
  · rcases c with _ | ⟨d, c⟩
    · rw [List.append_nil] at hf
      exact .inl ⟨[], hb.symm, by rw [hf, List.append_nil]⟩
    · obtain ⟨rfl, rfl⟩ := List.cons.inj hb
      exact .inr ⟨c, hf, rfl⟩

variable (h : Represents next prev first l)
include h

theorem Represents.congr (hn : ∀ x ∈ l, next' x = next x)
    (hp : ∀ x ∈ l, prev' x = prev x) : Represents next' prev' first l := by
  refine ⟨h.first, fun front x back hl => ?_, fun front x back hl => ?_, h.nodup⟩
  · rw [hn x (by simp [hl]), h.next front x back hl]
  · rw [hp x (by simp [hl]), h.prev front x back hl]

theorem Represents.first_mem (hx : first = some x) : x ∈ l := by
  rw [h.first] at hx
  exact List.mem_of_head? hx

/-- What is next to an element is an element, and another one. -/
theorem Represents.next_mem (hx : x ∈ l) (hy : next x = some y) : y ∈ l ∧ y ≠ x := by
  obtain ⟨front, back, rfl⟩ := List.append_of_mem hx
  rw [h.next front x back rfl] at hy
  have hmem := List.mem_of_head? hy
  refine ⟨List.mem_append_right _ (List.mem_cons_of_mem _ hmem), ?_⟩
  rintro rfl
  exact (List.nodup_cons.mp (List.nodup_append.mp h.nodup).2.1).1 hmem

theorem Represents.prev_mem (hx : x ∈ l) (hy : prev x = some y) : y ∈ l ∧ y ≠ x := by
  obtain ⟨front, back, rfl⟩ := List.append_of_mem hx
  rw [h.prev front x back rfl] at hy
  have hmem := List.mem_of_getLast? hy
  refine ⟨List.mem_append_left _ hmem, ?_⟩
  exact (List.nodup_append.mp h.nodup).2.2 y hmem x List.mem_cons_self

theorem Represents.next_ne_prev (hx : x ∈ l) (hy : next x = some y) (hz : prev x = some z) : y ≠ z := by
  obtain ⟨front, back, rfl⟩ := List.append_of_mem hx
  rw [h.next front x back rfl] at hy
  rw [h.prev front x back rfl] at hz
  have hne := (List.nodup_append.mp h.nodup).2.2 z (List.mem_of_getLast? hz) y
    (List.mem_cons_of_mem _ (List.mem_of_head? hy))
  exact hne.symm

/-- A new element in front. -/
theorem Represents.cons [DecidableEq α] (hx : x ∉ l) (hnx : next' x = first)
    (hpx : prev' x = none) (hn : ∀ y ∈ l, next' y = next y)
    (hp : ∀ y ∈ l, prev' y = if first = some y then some x else prev y) :
    Represents next' prev' (some x) (x :: l) := by
  refine ⟨rfl, fun front y back hl => ?_, fun front y back hl => ?_,
    List.nodup_cons.mpr ⟨hx, h.nodup⟩⟩
  · rcases front with _ | ⟨a, front⟩
    · obtain ⟨rfl, rfl⟩ := List.cons.inj hl
      rw [hnx, h.first]
    · obtain ⟨rfl, rfl⟩ := List.cons.inj hl
      rw [hn y (by simp), h.next front y back rfl]
  · rcases front with _ | ⟨a, front⟩
    · obtain ⟨rfl, rfl⟩ := List.cons.inj hl
      rw [hpx]
      rfl
    · obtain ⟨rfl, rfl⟩ := List.cons.inj hl
      rw [hp y (by simp)]
      rcases front with _ | ⟨b, front⟩
      · have hfirst : first = some y := h.first
        rw [if_pos hfirst]
        rfl
      · -- an element further behind is not the first one
        have hne : first ≠ some y := by
          rw [h.first]
          rintro he
          cases he
          exact (List.nodup_cons.mp h.nodup).1 (by simp)
        rw [if_neg hne, h.prev (b :: front) y back rfl, List.getLast?_cons_cons]

/-- An element removed: its neighbours are linked to each other. -/
theorem Represents.erase [DecidableEq α] (hx : x ∈ l)
    (hn : ∀ y ∈ l, y ≠ x → next' y = if prev x = some y then next x else next y)
    (hp : ∀ y ∈ l, y ≠ x → prev' y = if next x = some y then prev x else prev y) :
    Represents next' prev' (if first = some x then next x else first) (l.erase x) := by
  obtain ⟨front, back, rfl⟩ := List.append_of_mem hx
  obtain ⟨hnf, hnxb, hdisj⟩ := List.nodup_append.mp h.nodup
  obtain ⟨hxb, hnb⟩ := List.nodup_cons.mp hnxb
  have hxf : x ∉ front := fun hm => hdisj x hm x List.mem_cons_self rfl
  have hnx := h.next front x back rfl
  have hpx := h.prev front x back rfl
  rw [List.erase_append_right _ hxf, List.erase_cons_head]
  refine ⟨?_, fun a y b hl => ?_, fun a y b hl => ?_, ?_⟩
  · rcases front with _ | ⟨c, front⟩
    · have hfirst : first = some x := h.first
      rw [if_pos hfirst, hnx]
      rfl
    · have hfirst : first = some c := h.first
      have hcx : c ≠ x := fun he => hxf (he ▸ List.mem_cons_self)
      rw [if_neg (by rw [hfirst]; simpa using hcx), hfirst]
      rfl
  · rcases split_cases hl with ⟨c, rfl, rfl⟩ | ⟨c, rfl, rfl⟩
    · -- behind the gap: what is before the gap is another one
      have hne : prev x ≠ some y := by
        rw [hpx]
        intro he
        exact hdisj y (List.mem_of_getLast? he) y (by simp) rfl
      rw [hn y (by simp) (fun he => hxb (by simp [he])), if_neg hne]
      exact h.next (front ++ x :: c) y b (by simp)
    · rw [hn y (by simp) (fun he => hxf (by simp [he]))]
      rcases List.eq_nil_or_concat c with rfl | ⟨c, d, rfl⟩
      · rw [if_pos (by rw [hpx]; simp), hnx]
        rfl
      · have hne : prev x ≠ some y := by
          have hlast : a ++ y :: c.concat d = (a ++ y :: c) ++ [d] := by simp
          rw [hpx, hlast, List.getLast?_concat]
          intro he
          have hyd : d = y := Option.some.inj he
          have hny := (List.nodup_cons.mp (List.nodup_append.mp hnf).2.1).1
          exact hny (by simp [hyd])
        rw [if_neg hne, h.next a y (c ++ [d] ++ x :: back) (by simp)]
        cases c <;> rfl
  · rcases split_cases hl with ⟨c, rfl, rfl⟩ | ⟨c, rfl, rfl⟩
    · rw [hp y (by simp) (fun he => hxb (by simp [he]))]
      rcases c with _ | ⟨d, c⟩
      · rw [if_pos (by rw [hnx]; rfl), hpx, List.append_nil]
      · have hne : next x ≠ some y := by
          rw [hnx]
          intro he
          have hyd : d = y := by simpa using he
          exact (List.nodup_cons.mp hnb).1 (by simp [hyd])
        rw [if_neg hne, h.prev (front ++ x :: d :: c) y b (by simp)]
        simp
    · have hne : next x ≠ some y := by
        rw [hnx]
        intro he
        exact hdisj y (by simp) y (List.mem_cons_of_mem _ (List.mem_of_head? he)) rfl
      rw [hp y (by simp) (fun he => hxf (by simp [he])), if_neg hne]
      exact h.prev a y (c ++ x :: back) (by simp)
  · exact List.nodup_append.mpr ⟨hnf, hnb, fun y hy z hz => hdisj y hy z (List.mem_cons_of_mem _ hz)⟩

end

end Flix.Siblings

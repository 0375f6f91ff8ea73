import Mathlib.Logic.Relation

/-!
# Waiting in a tree

Parties that wait for each other, placed in a tree by a rank. Some are *settled*: one
that is waits only for settled parties further down. One that is not waits for a
settled party, or for one further up. Then nobody waits for itself, through whatever
others.
-/

namespace Flix.WaitGraph

open Relation

variable {α : Type} {waits : α → α → Prop} {rank : α → Nat} {settled : α → Prop} {x y : α}

/-- Along a path: from a settled party down, and from another one up until a settled party is
met. -/
theorem path_rank (hdown : ∀ x y, waits x y → settled x → settled y ∧ rank x < rank y)
    (hup : ∀ x y, waits x y → ¬ settled x → settled y ∨ rank y < rank x)
    (h : TransGen waits x y) :
    (settled x → settled y ∧ rank x < rank y) ∧ (¬ settled x → settled y ∨ rank y < rank x) := by
  induction h with
  | single h => exact ⟨hdown _ _ h, hup _ _ h⟩
  | tail _ hstep ih =>
    rename_i b c _
    refine ⟨fun hx => ?_, fun hx => ?_⟩
    · obtain ⟨hb, hlt⟩ := ih.1 hx
      exact (hdown _ _ hstep hb).imp id (Nat.lt_trans hlt)
    · by_cases hb : settled b
      · exact .inl (hdown _ _ hstep hb).1
      · exact (hup _ _ hstep hb).imp id fun hlt =>
          Nat.lt_trans hlt ((ih.2 hx).resolve_left hb)

/-- No cycle. -/
theorem no_cycle (hdown : ∀ x y, waits x y → settled x → settled y ∧ rank x < rank y)
    (hup : ∀ x y, waits x y → ¬ settled x → settled y ∨ rank y < rank x) (x : α) :
    ¬ TransGen waits x x := by
  intro h
  obtain ⟨hs, hn⟩ := path_rank hdown hup h
  by_cases hx : settled x
  · exact Nat.lt_irrefl _ (hs hx).2
  · exact (hn hx).elim hx (Nat.lt_irrefl _)

end Flix.WaitGraph

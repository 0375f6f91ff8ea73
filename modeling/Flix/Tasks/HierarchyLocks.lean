import Mathlib.Data.List.Basic
import Flix.Lib.WaitGraph
import Flix.Tasks.HierarchyRuns

/-!
# The mutexes of the hierarchy

The comment at `HierarchyHolder` wants mutexes taken from the top down and from left to
right. The code does not keep to this: `addChild` takes the new child before its
parent. What saves it is that a task works on its own children only. A task with its
own mutex waits for one below it, and whoever has that one has its own too. A task
without its own mutex waits for that one, so for its parent or for the parent of its
parent; the new child, which it may have by then, nobody else can see.
-/

namespace Flix.Tasks

open Runs

section

variable {s : State} {kids : Tid → List Tid} {x y m : Tid}

/-- Whoever has a mutex that is not its own has it from above. -/
theorem Inv.holder_above (hi : Inv s kids) {rank : Tid → Nat} (hrank : Ranked s.tree rank)
    (hm : s.holder m = some y) : y = m ∨ rank y < rank m := by
  obtain ⟨hmem, hfam⟩ := hi.family y m ((hi.holder m y).mp hm)
  rcases hfam with rfl | hbelow
  · exact .inl rfl
  · exact .inr (hi.forest.rank_of_below hrank hmem hbelow)

/-- What a task waits for below itself is in the hands of the task it belongs to. -/
theorem Inv.holder_below (hi : Inv s kids) (hw : wants s x = some m) (hb : Below s.tree x m)
    (hm : s.holder m = some y) : y = m := by
  have hnew : y ≠ x := by
    rintro rfl
    exact (hi.wanted hw).new ((hi.holder m y).mp hm)
  have hbusy : s.locks y ≠ [] := List.ne_nil_of_mem ((hi.holder m y).mp hm)
  have hlive : s.tree.zombie x = false := by
    refine (hi.busy x fun hrun => ?_).2
    rw [wants, hrun] at hw
    cases hw
  rcases (hi.family y m ((hi.holder m y).mp hm)).2 with rfl | hy
  · rfl
  -- otherwise `y` is above `m` as `x` is, and one of the two has exited
  · exfalso
    rcases hy with hym | ⟨z, hz, hzy, hmz⟩ <;> rcases hb with hxm | ⟨w, hw, hwx, hmw⟩
    · exact hnew (mem_unique hym hxm)
    · obtain rfl := mem_unique hym hmw
      exact hbusy (hi.locks_of_zombie hw)
    · obtain rfl := mem_unique hmz hxm
      rw [hz] at hlive
      cases hlive
    · obtain rfl := mem_unique hmz hmw
      exact hnew (mem_unique hzy hwx)

/-- The task a mutex belongs to has it, and no other: it has its own. -/
theorem Inv.settled_of_holder (hi : Inv s kids) (hm : s.holder m = some m) : m ∈ s.locks m :=
  (hi.holder m m).mp hm

/-- Nobody waits for itself, through whatever others. -/
theorem Inv.no_cycle (hi : Inv s kids) (x : Tid) : ¬ Relation.TransGen (Waits s) x x := by
  obtain ⟨rank, hrank⟩ := hi.forest.acyclic
  have hdown : ∀ x y, Waits s x y → x ∈ s.locks x → y ∈ s.locks y ∧ rank x < rank y := by
    rintro x y ⟨m, hw, hm⟩ hx
    have hwant := hi.wanted hw
    rcases hwant.place with rfl | ⟨hb, -⟩
    · exact absurd hx hwant.new
    · obtain rfl := hi.holder_below hw hb hm
      exact ⟨hi.settled_of_holder hm, hi.forest.rank_of_below hrank hwant.mem hb⟩
  have hup : ∀ x y, Waits s x y → x ∉ s.locks x → y ∈ s.locks y ∨ rank y < rank x := by
    rintro x y ⟨m, hw, hm⟩ hx
    have hwant := hi.wanted hw
    rcases hwant.place with rfl | ⟨hb, -⟩
    · rcases hi.holder_above hrank hm with rfl | hlt
      · exact absurd (hi.settled_of_holder hm) hwant.new
      · exact .inr hlt
    · obtain rfl := hi.holder_below hw hb hm
      exact .inl (hi.settled_of_holder hm)
  exact WaitGraph.no_cycle hdown hup x

end

/-- **The mutexes of the hierarchy cannot deadlock.** From any forest of tasks, and in whatever
order any of them add tasks, exit and wait: nobody waits for a mutex it has, and no tasks wait for
each other in a cycle. -/
theorem hierarchy_deadlock_free {s₀ s : State} {kids : Tid → List Tid} (hq : Quiet s₀)
    (hf : Forest s₀.tree (fun _ => False) kids) (hs : Reach step (fun _ _ => True) s₀ s) :
    (∀ x m, wants s x = some m → s.holder m ≠ some x) ∧
      ∀ x, ¬ Relation.TransGen (Waits s) x x := by
  obtain ⟨kids', hi⟩ := (hq.inv hf).reach hs
  refine ⟨fun x m hw hm => ?_, hi.no_cycle⟩
  exact (hi.wanted hw).new ((hi.holder m x).mp hm)

/-- Task 1 adds task 2, and then task 3 while task 2 looks for a child of its own: task 1 waits for
the mutex of its first child. -/
theorem hierarchy_deadlock_free_addTask : ∃ s, Reach step (fun _ _ => True) boot s ∧
    Waits s 1 2 ∧ ¬ Relation.TransGen (Waits s) 1 1 := by
  have hrun : (run step boot [.addTask 1, .advance 1, .advance 1, .advance 1, .advance 1, .advance 1,
      .advance 1, .advance 1, .addTask 1, .wait 2 ANY, .advance 2, .advance 1, .advance 1]).isSome :=
    rfl
  obtain ⟨s, hs⟩ := isSome_iff_exists.mp hrun
  have hreach : Reach step (fun _ _ => True) boot s := Reach.of_run (fun _ _ _ => trivial) hs
  refine ⟨s, hreach, ?_, (hierarchy_deadlock_free quiet_boot forest_boot hreach).2 1⟩
  cases hs
  exact ⟨2, rfl, rfl⟩

end Flix.Tasks

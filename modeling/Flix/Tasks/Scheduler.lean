import Mathlib.Tactic.Ring

/-!
# Which task runs next

`TaskManager::getNext` looks for the next task to run, from the active one on and once
around. It does not follow the iterator it has: when the task found is not runnable it
adds one to the number it looked from, and looks again. So a task that sleeps is found
again and again, until the number has reached its own, and only then the one behind it.

What is looked for is `firstAfter`, one search over the table. The loop comes to the same
because a round either finds a runnable task, which is then the one that `firstAfter`
finds, or changes the number by one and `firstAfter` not at all.
-/

namespace Flix.Scheduler

/-- `Task::State`. -/
inductive TaskState where
  | Runnable
  | Sleeping
  | Zombie
  deriving DecidableEq

/-- The fields of a `Task` that the scheduler reads. -/
structure Task where
  tid : Nat
  state : TaskState
  deriving DecidableEq

/-- `_tasks`, a `std::set` with `TaskComparator`: in the order of the numbers, each of which
is of 32 bits and stands for a task. -/
structure Tasks where
  list : List Task
  sorted : list.Pairwise (fun t u => t.tid < u.tid)
  tid_pos : ∀ t ∈ list, 0 < t.tid
  tid_lt : ∀ t ∈ list, t.tid < 2 ^ 32

/-- `_tasks.upper_bound(id)`, which is `none` for `end()`. -/
def Tasks.upper_bound (tasks : Tasks) (id : Nat) : Option Task :=
  tasks.list.find? (fun t => id < t.tid)

/-- The local variables of `getNext`. -/
structure Search where
  id : Nat
  looped : Bool

/-- The loop of `getNext`, for at most `fuel` rounds. The result is the iterator returned. -/
def getNextLoop (tasks : Tasks) : Nat → Search → Option (Option Task)
  | 0, _ => none
  | fuel + 1, s =>
    match tasks.upper_bound s.id with
    | none =>
      if s.looped then some none
      else getNextLoop tasks fuel ⟨0, true⟩
    | some t =>
      if t.state = .Runnable then some (some t)
      else getNextLoop tasks fuel { s with id := (s.id + 1) % 2 ^ 32 }

def getNext (tasks : Tasks) (activeTask fuel : Nat) : Option (Option Task) :=
  getNextLoop tasks fuel ⟨activeTask, false⟩

/-! ## One search over the table -/

def Tasks.firstAfter (tasks : Tasks) (id : Nat) : Option Task :=
  tasks.list.find? (fun t => id < t.tid ∧ t.state = .Runnable)

variable {tasks : Tasks} {id : Nat} {t u : Task}

/-- In a sorted table, what a search finds has the smallest number of all that it could
find. -/
theorem find_least {l : List Task} (hl : l.Pairwise (fun t u => t.tid < u.tid))
    {p : Task → Bool} (h : l.find? p = some t) :
    t ∈ l ∧ p t = true ∧ ∀ u ∈ l, p u = true → u = t ∨ t.tid < u.tid := by
  obtain ⟨hp, before, after, rfl, hbefore⟩ := List.find?_eq_some_iff_append.mp h
  refine ⟨by simp, hp, fun u hu hpu => ?_⟩
  rcases List.mem_append.mp hu with hu | hu
  · have hnot := hbefore u hu
    simp [hpu] at hnot
  · rcases List.mem_cons.mp hu with rfl | hu
    · exact .inl rfl
    · have hcons := (List.pairwise_append.mp hl).2.1
      exact .inr ((List.pairwise_cons.mp hcons).1 u hu)

theorem upper_bound_eq_some (h : tasks.upper_bound id = some t) :
    t ∈ tasks.list ∧ id < t.tid ∧ ∀ u ∈ tasks.list, id < u.tid → u = t ∨ t.tid < u.tid := by
  obtain ⟨hmem, hid, hleast⟩ := find_least tasks.sorted h
  exact ⟨hmem, of_decide_eq_true hid, fun u hu hlt => hleast u hu (decide_eq_true hlt)⟩

theorem upper_bound_eq_none (h : tasks.upper_bound id = none) :
    ∀ u ∈ tasks.list, u.tid ≤ id := by
  intro u hu
  have hnot := List.find?_eq_none.mp h u hu
  simpa using hnot

theorem firstAfter_eq_some (h : tasks.firstAfter id = some t) :
    t ∈ tasks.list ∧ (id < t.tid ∧ t.state = .Runnable) ∧
      ∀ u ∈ tasks.list, id < u.tid → u.state = .Runnable → t.tid ≤ u.tid := by
  obtain ⟨hmem, hid, hleast⟩ := find_least tasks.sorted h
  refine ⟨hmem, of_decide_eq_true hid, fun u hu hlt hrun => ?_⟩
  rcases hleast u hu (decide_eq_true ⟨hlt, hrun⟩) with rfl | hlt
  · exact Nat.le_refl _
  · exact Nat.le_of_lt hlt

theorem firstAfter_eq_none :
    tasks.firstAfter id = none ↔ ∀ u ∈ tasks.list, id < u.tid → u.state ≠ .Runnable := by
  simp [Tasks.firstAfter]

/-! ## The loop -/

theorem firstAfter_of_runnable (h : tasks.upper_bound id = some t) (hrun : t.state = .Runnable) :
    tasks.firstAfter id = some t := by
  obtain ⟨hmem, hid, hleast⟩ := upper_bound_eq_some h
  cases hf : tasks.firstAfter id with
  | none => exact absurd hrun (firstAfter_eq_none.mp hf t hmem hid)
  | some u =>
    obtain ⟨hu, ⟨hidu, -⟩, hfirst⟩ := firstAfter_eq_some hf
    rcases hleast u hu hidu with rfl | hlt
    · rfl
    · exact absurd (hfirst t hmem hid hrun) (Nat.not_le.mpr hlt)

/-- The round finds another task. It may have the number `id + 1`, but no runnable one has. -/
theorem firstAfter_succ (h : tasks.upper_bound id = some t) (hrun : t.state ≠ .Runnable) :
    tasks.firstAfter (id + 1) = tasks.firstAfter id := by
  obtain ⟨-, hid, hleast⟩ := upper_bound_eq_some h
  rw [Tasks.firstAfter, Tasks.firstAfter, ← List.head?_filter, ← List.head?_filter]
  refine congrArg _ (List.filter_congr fun u hu => decide_eq_decide.mpr ⟨?_, ?_⟩)
  · rintro ⟨hlt, hu'⟩
    exact ⟨Nat.lt_of_succ_lt hlt, hu'⟩
  · rintro ⟨hlt, hu'⟩
    rcases hleast u hu hlt with rfl | hlt'
    · exact absurd hu' hrun
    · exact ⟨Nat.lt_of_le_of_lt hid hlt', hu'⟩

theorem firstAfter_of_end (h : tasks.upper_bound id = none) : tasks.firstAfter id = none :=
  firstAfter_eq_none.mpr fun u hu hlt =>
    absurd hlt (Nat.not_lt.mpr (upper_bound_eq_none h u hu))

/-- What the loop comes to, from any values of its variables. -/
def Tasks.outcome (tasks : Tasks) (s : Search) : Option Task :=
  (tasks.firstAfter s.id).or (if s.looped then none else tasks.firstAfter 0)

/-- How many rounds are left at most: as many as there are numbers from `id` on, and all of
them once more if the search has not been around yet. -/
def Search.rounds (s : Search) : Nat := (2 ^ 32 - s.id) + if s.looped then 0 else 2 ^ 32 + 1

/-- The induction is on the number of rounds left. A number that a task is found behind is
below `2 ^ 32 - 1`, so adding one to it does not wrap. -/
theorem getNextLoop_eq : ∀ (fuel : Nat) (s : Search), s.rounds < fuel →
    getNextLoop tasks fuel s = some (tasks.outcome s)
  | 0, _, hfuel => absurd hfuel (Nat.not_lt_zero _)
  | fuel + 1, ⟨id, looped⟩, hfuel => by
    rw [getNextLoop]
    cases hub : tasks.upper_bound id with
    | none =>
      cases looped with
      | true => simp [Tasks.outcome, firstAfter_of_end hub]
      | false =>
        have hleft : Search.rounds ⟨0, true⟩ < fuel := by
          simp only [Search.rounds, if_true, Bool.false_eq_true, if_false] at hfuel ⊢
          omega
        have ih := getNextLoop_eq fuel ⟨0, true⟩ hleft
        simpa [Tasks.outcome, firstAfter_of_end hub] using ih
    | some t =>
      by_cases hrun : t.state = .Runnable
      · simp [hrun, Tasks.outcome, firstAfter_of_runnable hub hrun]
      · obtain ⟨hmem, hid, -⟩ := upper_bound_eq_some hub
        have htid := tasks.tid_lt t hmem
        have hnowrap : (id + 1) % 2 ^ 32 = id + 1 := Nat.mod_eq_of_lt (by omega)
        have hleft : Search.rounds ⟨id + 1, looped⟩ < fuel := by
          simp only [Search.rounds] at hfuel ⊢
          omega
        have ih := getNextLoop_eq fuel ⟨id + 1, looped⟩ hleft
        have hsame : tasks.outcome ⟨id + 1, looped⟩ = tasks.outcome ⟨id, looped⟩ := by
          rw [Tasks.outcome, Tasks.outcome, firstAfter_succ hub hrun]
        simp only [if_neg hrun, hnowrap]
        rw [ih, hsame]

/-- **Round robin.** Once around is enough, and what is returned is the runnable task with
the smallest number above the active one's, or if there is none the runnable task with the
smallest number of all. -/
theorem getNext_round_robin (tasks : Tasks) (activeTask : Nat) :
    ∃ next rounds, (∀ fuel ≥ rounds, getNext tasks activeTask fuel = some next) ∧
      (next = none ↔ ∀ u ∈ tasks.list, u.state ≠ .Runnable) ∧
      ∀ t, next = some t → t ∈ tasks.list ∧ t.state = .Runnable ∧
        ((∃ u ∈ tasks.list, activeTask < u.tid ∧ u.state = .Runnable) →
          activeTask < t.tid ∧
          ∀ u ∈ tasks.list, activeTask < u.tid → u.state = .Runnable → t.tid ≤ u.tid) ∧
        ((∀ u ∈ tasks.list, activeTask < u.tid → u.state ≠ .Runnable) →
          ∀ u ∈ tasks.list, u.state = .Runnable → t.tid ≤ u.tid) := by
  refine ⟨tasks.outcome ⟨activeTask, false⟩, Search.rounds ⟨activeTask, false⟩ + 1,
    fun fuel hfuel => getNextLoop_eq fuel _ hfuel, ?_, ?_⟩
  · simp only [Tasks.outcome, Option.or_eq_none_iff, firstAfter_eq_none, Bool.false_eq_true,
      if_false]
    constructor
    · rintro ⟨-, hnone⟩ u hu
      exact hnone u hu (tasks.tid_pos u hu)
    · intro hnone
      exact ⟨fun u hu _ => hnone u hu, fun u hu _ => hnone u hu⟩
  · intro t ht
    simp only [Tasks.outcome, Option.or_eq_some_iff, Bool.false_eq_true, if_false] at ht
    rcases ht with ht | ⟨hnone, ht⟩
    · obtain ⟨hmem, ⟨hlt, hrun⟩, hleast⟩ := firstAfter_eq_some ht
      exact ⟨hmem, hrun, fun _ => ⟨hlt, hleast⟩, fun hno => absurd hrun (hno t hmem hlt)⟩
    · obtain ⟨hmem, ⟨-, hrun⟩, hleast⟩ := firstAfter_eq_some ht
      refine ⟨hmem, hrun, fun hsome => ?_, fun _ u hu => hleast u hu (tasks.tid_pos u hu)⟩
      obtain ⟨u, hu, hlt, hurun⟩ := hsome
      exact absurd hurun (firstAfter_eq_none.mp hnone u hu hlt)

end Flix.Scheduler

import Flix.Lib.Runs
import Flix.Tasks.Scheduler
import Mathlib.Data.Finset.Card

/-!
# How long a task waits for its turn

`getNext` goes once around from `_activeTask` on. But `terminateCurrentTask` sets
`_activeTask` to 0 before it schedules, so that every exit begins the round again at the
smallest number. Between two exits no other task comes to its turn twice before a task that
stays runnable, whatever becomes of the others in the meantime, and so the number of tasks
and of exits bounds its wait.
-/

namespace Flix.Scheduler

/-- A call of `scheduleNext`, with `_tasks` as it is then. -/
structure Switch where
  tasks : Tasks
  /-- The caller is `terminateCurrentTask`. -/
  exits : Bool

/-- Where `getNext` begins. -/
def Switch.start (s : Switch) (activeTask : Nat) : Nat := if s.exits then 0 else activeTask

/-- `scheduleNext`: the new `_activeTask`, which is 0 if there is nothing to run. -/
def scheduleNext (activeTask : Nat) (s : Switch) : Option Nat := do
  assert (∃ t ∈ s.tasks.list, t.state ≠ .Zombie)
  let next ← getNext s.tasks (s.start activeTask) (2 ^ 33 + 2)
  some (next.elim 0 Task.tid)

/-- The values of `_activeTask`, from one call to the next. -/
def schedule : Nat → List Switch → Option (List Nat)
  | _, [] => some []
  | activeTask, s :: run => do
    let next ← scheduleNext activeTask s
    let rest ← schedule next run
    some (next :: rest)

/-! ## The round -/

/-- The round that begins behind `a` comes to `c` before it comes to `t`. -/
def Before (a t c : Nat) : Prop := if a < t then a < c ∧ c < t else a < c ∨ c < t

instance (a t c : Nat) : Decidable (Before a t c) := by unfold Before; infer_instance

/-- The numbers that the round comes to before `t`. -/
def ahead (tids : Finset Nat) (a t : Nat) : Finset Nat := tids.filter (Before a t)

variable {a c t : Nat} {tids : Finset Nat}

theorem Before.trans {d : Nat} (h : Before a t c) (h' : Before c t d) : Before a t d := by
  unfold Before at *
  split_ifs at * <;> omega

theorem not_before_self : ¬ Before a t a := by
  unfold Before
  split_ifs <;> omega

theorem Before.ne (h : Before a t c) : c ≠ t := by
  unfold Before at h
  split_ifs at h <;> omega

/-- Each turn of another task leaves fewer to come. -/
theorem ahead_lt (hc : c ∈ tids) (h : Before a t c) :
    (ahead tids c t).card < (ahead tids a t).card := by
  refine Finset.card_lt_card ⟨fun d hd => ?_, fun hsub => ?_⟩
  · obtain ⟨hd, hafter⟩ := Finset.mem_filter.mp hd
    exact Finset.mem_filter.mpr ⟨hd, h.trans hafter⟩
  · exact not_before_self (Finset.mem_filter.mp (hsub (Finset.mem_filter.mpr ⟨hc, h⟩))).2

theorem ahead_le (ht : t ∈ tids) : (ahead tids a t).card ≤ tids.card - 1 := by
  rw [← Finset.card_erase_of_mem ht]
  refine Finset.card_le_card fun d hd => ?_
  obtain ⟨hd, hbefore⟩ := Finset.mem_filter.mp hd
  exact Finset.mem_erase.mpr ⟨hbefore.ne, hd⟩

/-! ## Calls -/

/-- While a task is runnable, `scheduleNext` picks it or one that comes before it. -/
theorem scheduleNext_before {s : Switch} {u : Task} (hu : u ∈ s.tasks.list)
    (hrun : u.state = .Runnable) :
    ∃ v ∈ s.tasks.list, scheduleNext a s = some v.tid ∧
      (v.tid = u.tid ∨ Before (s.start a) u.tid v.tid) := by
  have hzombie : ∃ t ∈ s.tasks.list, t.state ≠ .Zombie := ⟨u, hu, by simp [hrun]⟩
  have hnext : scheduleNext a s
      = some ((s.tasks.outcome ⟨s.start a, false⟩).elim 0 Task.tid) := by
    have hrounds : Search.rounds ⟨s.start a, false⟩ < 2 ^ 33 + 2 := by
      simp only [Search.rounds, Bool.false_eq_true, if_false]
      omega
    rw [scheduleNext, assert_pos hzombie, getNext, getNextLoop_eq _ _ hrounds]
    rfl
  rw [hnext]
  simp only [Tasks.outcome, Bool.false_eq_true, if_false]
  cases hfirst : s.tasks.firstAfter (s.start a) with
  | some v =>
    obtain ⟨hv, ⟨hlt, -⟩, hleast⟩ := firstAfter_eq_some hfirst
    refine ⟨v, hv, rfl, ?_⟩
    unfold Before
    split_ifs with hafter
    · have hle := hleast u hu hafter hrun
      omega
    · exact .inr (.inl hlt)
  | none =>
    -- nothing is runnable behind the start, and so `u` is not behind it
    have hbehind : ¬ s.start a < u.tid := fun hlt => firstAfter_eq_none.mp hfirst u hu hlt hrun
    cases hagain : s.tasks.firstAfter 0 with
    | none => exact absurd hrun (firstAfter_eq_none.mp hagain u hu (s.tasks.tid_pos u hu))
    | some v =>
      obtain ⟨hv, -, hleast⟩ := firstAfter_eq_some hagain
      have hle := hleast u hu (s.tasks.tid_pos u hu) hrun
      refine ⟨v, hv, rfl, ?_⟩
      rw [Before, if_neg hbehind]
      omega

/-- The wait. The induction is on the calls: a turn of another task takes one from those
that are still ahead, and an exit puts at most all of them ahead again. -/
theorem schedule_waits (run : List Switch) (a : Nat) (ht : t ∈ tids)
    (hrun : ∀ s ∈ run, ∃ u ∈ s.tasks.list, u.tid = t ∧ u.state = .Runnable)
    (htids : ∀ s ∈ run, ∀ u ∈ s.tasks.list, u.tid ∈ tids) :
    ∃ chosen, schedule a run = some chosen ∧ (t ∉ chosen →
      run.length ≤ (ahead tids a t).card + run.countP Switch.exits * (tids.card - 1)) := by
  induction run generalizing a with
  | nil => exact ⟨[], rfl, fun _ => Nat.zero_le _⟩
  | cons s run ih =>
    obtain ⟨u, hu, rfl, hstate⟩ := hrun s mem_cons_self
    obtain ⟨v, hv, hnext, hbefore⟩ := scheduleNext_before (a := a) hu hstate
    obtain ⟨chosen, hrest, hwait⟩ := ih v.tid (fun s hs => hrun s (mem_cons_of_mem _ hs))
      (fun s hs => htids s (mem_cons_of_mem _ hs))
    refine ⟨v.tid :: chosen, by rw [schedule, hnext, bind_eq_bind, bind_some, hrest]; rfl,
      fun hnot => ?_⟩
    obtain ⟨hne, hnot⟩ := not_or.mp (mt mem_cons.mpr hnot)
    have hlt := ahead_lt (htids s mem_cons_self v hv) (hbefore.resolve_left (Ne.symm hne))
    have hle := hwait hnot
    rw [length_cons, List.countP_cons]
    cases hexit : s.exits with
    | false =>
      rw [Switch.start, hexit, if_neg Bool.false_ne_true] at hlt
      simp only [Bool.false_eq_true, if_false, Nat.add_zero]
      omega
    | true =>
      have hall := ahead_le (a := s.start a) ht
      simp only [if_true, Nat.add_mul, Nat.one_mul]
      omega

/-- **A runnable task gets its turn.** As long as it stays runnable, the calls of
`scheduleNext` that pass it over are at most as many as there are other tasks, and as many
again for every exit. -/
theorem runnable_task_gets_turn (activeTask : Nat) (run : List Switch) (tids : Finset Nat)
    (hrun : ∀ s ∈ run, ∃ u ∈ s.tasks.list, u.tid = t ∧ u.state = .Runnable)
    (htids : ∀ s ∈ run, ∀ u ∈ s.tasks.list, u.tid ∈ tids) :
    ∃ chosen, schedule activeTask run = some chosen ∧
      ((run.countP Switch.exits + 1) * (tids.card - 1) < run.length → t ∈ chosen) := by
  cases run with
  | nil => exact ⟨[], rfl, fun h => absurd h (Nat.not_lt_zero _)⟩
  | cons s run =>
    have ht : t ∈ tids := by
      obtain ⟨u, hu, rfl, -⟩ := hrun s mem_cons_self
      exact htids s mem_cons_self u hu
    obtain ⟨chosen, hchosen, hwait⟩ := schedule_waits (s :: run) activeTask ht hrun htids
    refine ⟨chosen, hchosen, fun hlong => ?_⟩
    by_contra hnot
    have hle := hwait hnot
    have hall := ahead_le (a := activeTask) ht
    rw [Nat.add_mul, Nat.one_mul] at hlong
    omega

/-- Two tasks, of which both can run. -/
def twoTasks : Tasks where
  list := [⟨1, .Runnable⟩, ⟨2, .Runnable⟩]
  sorted := by decide
  tid_pos := by decide
  tid_lt := by decide

theorem runnable_task_gets_turn_twoTasks :
    ∃ chosen, schedule 2 [⟨twoTasks, false⟩, ⟨twoTasks, false⟩] = some chosen ∧ 2 ∈ chosen := by
  obtain ⟨chosen, hchosen, hturn⟩ := runnable_task_gets_turn (t := 2) 2
    [⟨twoTasks, false⟩, ⟨twoTasks, false⟩] {1, 2} (by simp [twoTasks]) (by simp [twoTasks])
  exact ⟨chosen, hchosen, hturn (by decide)⟩

end Flix.Scheduler

import Flix.Sync.Semaphores

/-!
# Mutual exclusion

A `Mutex` is a semaphore initialised to 1. As long as every `up` on it comes
from a context that was granted its permit, the permit is in exactly one place:
in the count, or with the one context that holds it.

Clients keep to that by unlocking, and calling `wait`, only while they hold the
mutex. But `CondVar::wait` unlocks the mutex on *every* round of its sleep loop.
When `putMeToSleep` returns before the condition has triggered, the second round
gives back a permit the task no longer holds.
-/

namespace Flix.Sync

open Function Fifo Runs

variable {S C : Type} [DecidableEq S] [DecidableEq C]

/-! ## One holder -/

/-- Every `up` on `m` comes from a context that holds it. -/
def HolderUnlocks (m : S) (σ : State S C) (a : Action S C) : Prop :=
  ∀ p ∈ upOf σ a, p.2 = m → p.1 ∈ σ.ghost.held m

/-- The permit of `m` is in the count or with its holder. -/
def OneHolder (m : S) (σ : State S C) : Prop :=
  (σ.sem m).count + (σ.ghost.held m).length = 1

/-- `x` is between `lock()` returning and its `unlock()`. -/
def Inside (σ : State S C) (m : S) (x : Ctx) : Prop :=
  x ∈ σ.ghost.held m ∧ (σ.pc x).downOn ≠ some m

variable {m : S} {σ σ' : State S C} {x : Ctx}

omit [DecidableEq S] [DecidableEq C] in
theorem OneHolder.of_same (h : OneHolder m σ) (hs : SameSem σ σ') : OneHolder m σ' := by
  unfold OneHolder
  rw [hs.sem, hs.held]
  exact h

omit [DecidableEq C] in
theorem OneHolder.down {s : S} {r : Bool} (h : OneHolder m σ)
    (e : down σ x s r = some σ') : OneHolder m σ' := by
  unfold OneHolder at h ⊢
  obtain ⟨hc, rfl⟩ | ⟨t, _, _, rfl⟩ := down_cases e
  · by_cases hs : m = s
    · subst hs
      simp only [finishDown, takePermit, Ghost.return, Ghost.grant, Ghost.arrive, update_self,
        length_cons]
      omega
    · simpa [finishDown, takePermit, Ghost.return, Ghost.grant, update_of_ne hs]
  · by_cases hs : m = s
    · subst hs; simpa [linkSem, prepareMeForSleep, State.setPc, Ghost.arrive] using h
    · simpa [linkSem, prepareMeForSleep, State.setPc, Ghost.arrive, update_of_ne hs] using h

omit [DecidableEq C] in
theorem OneHolder.up {s : S} (h : OneHolder m σ)
    (hx : s = m → x ∈ σ.ghost.held m) (e : up σ x s = some σ') : OneHolder m σ' := by
  unfold OneHolder at h ⊢
  by_cases hs : m = s
  · subst hs
    have hlen := List.length_erase_of_mem (hx rfl)
    have hpos := List.length_pos_of_mem (hx rfl)
    obtain ⟨_, rfl⟩ | ⟨w, t, _, _, rfl⟩ := up_cases e
    · simp only [giveBack, Ghost.release, update_self]
      omega
    · simp only [handOver, wakeUpTask, Ghost.release, Ghost.grant, update_self, length_cons]
      omega
  · obtain ⟨_, rfl⟩ | ⟨w, t, _, _, rfl⟩ := up_cases e
    · simpa [giveBack, Ghost.release, update_of_ne hs] using h
    · simpa [handOver, wakeUpTask, Ghost.release, Ghost.grant, update_of_ne hs] using h

/-- A step keeps the one holder if what it unlocks it holds. -/
theorem oneHolder_step {a : Action S C} (h : OneHolder m σ)
    (hok : HolderUnlocks m σ a) (hs : step σ a = some σ') : OneHolder m σ' := by
  cases semStep_step hs with
  | none hsame => exact h.of_same hsame
  | down x s r σ1 _ hsame _ e => exact (h.of_same hsame).down e
  | up x s σ1 σ2 hu hsame e hsame' =>
    refine ((h.of_same hsame).up (fun hsm => ?_) e).of_same hsame'
    rw [hsame.held]
    exact hok (x, s) hu hsm
  | finish x s r _ _ e =>
    rw [e]
    simpa [OneHolder, finishDown, Ghost.return] using h

omit [DecidableEq S] [DecidableEq C] in
theorem OneHolder.unique (h : OneHolder m σ) {y : Ctx}
    (hx : x ∈ σ.ghost.held m) (hy : y ∈ σ.ghost.held m) : x = y := by
  have hlen : (σ.ghost.held m).length ≤ 1 := by unfold OneHolder at h; omega
  obtain ⟨i, hi, rfl⟩ := List.mem_iff_getElem.mp hx
  obtain ⟨j, hj, rfl⟩ := List.mem_iff_getElem.mp hy
  congr
  omega

/--
**Semaphores and mutexes are safe.** In every state that any interleaving
reaches, every semaphore keeps its contract; and of a mutex whose `up`s come
from its holder, at most one context is inside.
-/
theorem semaphores_safe (n : S → Nat) (garbage : C → Nat) (tasks : List Tid) :
    (∀ σ, Reach step CountOk (init n garbage tasks) σ → ∀ s, SemaphoreSafe (n s) σ s) ∧
    (∀ m, n m = 1 → ∀ σ, Reach step (fun σ a => CountOk σ a ∧ HolderUnlocks m σ a)
        (init n garbage tasks) σ → ∀ x y, Inside σ m x → Inside σ m y → x = y) := by
  refine ⟨fun σ h s => ?_, fun m hm σ h x y hx hy => ?_⟩
  · exact semaphoreSafe_reachable h s
  · have hone : OneHolder m σ := by
      refine h.invariant ?_ (fun σ a σ' hi hok hs => oneHolder_step hi hok.2 hs)
      simpa [OneHolder, init] using hm
    exact hone.unique hx.1 hy.1

instance (m : S) (σ : State S C) (a : Action S C) : Decidable (HolderUnlocks m σ a) := by
  unfold HolderUnlocks; infer_instance

instance [Fintype S] (σ : State S C) (a : Action S C) : Decidable (CountOk σ a) := by
  unfold CountOk; infer_instance

/-- Task 1 locks, task 2 goes to sleep on the mutex, task 1 hands it over. -/
def contendedRun : List (Action Unit Unit) :=
  [.timer (some 1), .call (.down ()), .timer (some 2), .call (.down ()), .advance (some 1),
    .call (.up ())]

theorem semaphores_safe_contendedRun :
    ∃ σ : State Unit Unit,
      Reach step (fun σ a => CountOk σ a ∧ HolderUnlocks () σ a) (init (fun _ => 1) (fun _ => 0) [1, 2]) σ
      ∧ σ.ghost.held () = [.task 2] ∧ SemaphoreSafe 1 σ ()
      ∧ ∀ x y, Inside σ () x → Inside σ () y → x = y := by
  have hrun : (guardedRun step (fun σ a => CountOk σ a ∧ HolderUnlocks () σ a)
      (init (fun _ => 1) (fun _ => 0) [1, 2] : State Unit Unit) contendedRun).map
        (fun σ => σ.ghost.held ()) = some [.task 2] := by decide
  obtain ⟨σ, hσ, hheld⟩ := map_eq_some_iff.mp hrun
  have hr := Reach.of_guardedRun hσ
  exact ⟨σ, hr, hheld, (semaphores_safe _ _ _).1 σ (hr.mono fun _ _ h => h.1) (),
    (semaphores_safe _ _ _).2 () rfl σ hr⟩

end Flix.Sync

import Flix.Sync.WaitExit
import Flix.Tasks.Ticking

/-!
# The models of the task manager agree

`terminateCurrentTask` and `wait` are in three models, with the mask of the timer, with the
mutexes of the hierarchy, and with semaphores and condition variables. From related states to
related states, an exit in the first is one in the hierarchy and, while nobody has the
`stateMutex`, one in the third; a `wait` for one child is one in the hierarchy.
-/

namespace Flix.Tasks.Ticking

open Function Runs
open Scheduler (TaskState)

variable {s s' : TaskManager}

/-! ## The hierarchy -/

/-- Where the hierarchy has a task. -/
def Waiting.place : Waiting → Pc
  | .no => .run
  | .cond child => .awaiting child
  | .ended child => .awaiting child

/-- The hierarchy has the same tasks, each in the same place. -/
structure InTree (s : TaskManager) (h : State) : Prop where
  tasks : h.tree.tasks = s.tasks
  parent : h.tree.parent = s.parent
  zombie : h.tree.zombie = (fun v => decide (v = .Zombie)) ∘ s.state
  place : h.pc = Waiting.place ∘ s.waiting

section

variable {h : State} {t child : Tid}

theorem comp_update_same {α β γ : Type} [DecidableEq α] {f : β → γ} {g : α → β} {a : α} {b : β}
    (hb : f b = f (g a)) : f ∘ update g a b = f ∘ g := by
  rw [comp_update, hb]
  exact update_eq_self a (f ∘ g)

/-- They are so with the first task. -/
theorem inTree_boot : InTree (TaskManager.start.insert 1 .Runnable none) boot := by
  constructor <;> simp [TaskManager.insert, TaskManager.start] <;> rfl

theorem InTree.notify (hi : InTree s h)
    (hp : ∀ p ∈ s.stateCond t, s.state p ≠ .Zombie ∧ s.waiting p = .cond t) :
    InTree (s.notify t) h := by
  unfold TaskManager.notify
  split
  · exact hi
  · rename_i p rest hlist
    obtain ⟨hz, hw⟩ := hp p (hlist ▸ mem_cons_self)
    exact { hi with
      zombie := hi.zombie.trans (comp_update_same (by simp [hz])).symm
      place := hi.place.trans (comp_update_same (by rw [hw]; rfl)).symm }

/-- The active task can take a step in the hierarchy. -/
theorem InTree.active (hi : InTree s h) (hs : Sound s) (hout : s.Outside)
    (ht : s.getActiveTask = some t) :
    (∀ a : Tasks.Action, a.by = t → Tasks.step h a = act h a) ∧ h.pc t = .run := by
  obtain ⟨htask, hz⟩ := hs.active_ne ht
  obtain ⟨rfl, -⟩ := getActiveTask_eq_some ht
  refine ⟨fun a ha => ?_, by rw [hi.place, comp_apply, hout.2]; rfl⟩
  have hlive : h.tree.zombie s.activeTask = false := by simp [hi.zombie, hz]
  rw [Tasks.step, ha, hi.tasks, assert_pos ⟨htask, hlive⟩]
  rfl

theorem InTree.terminateCurrentTask {flag : Bool} (hi : InTree s h) (hs : Sound s)
    (hout : s.Outside) (he : s.terminateCurrentTask flag = some s') :
    ∃ h', Tasks.step h (.terminateCurrentTask s.activeTask) = some h' ∧ InTree s' h' := by
  obtain ⟨-, he⟩ := of_assert he
  obtain ⟨t, ht, he⟩ := of_bind he
  obtain ⟨hne, he⟩ := of_assert he
  cases he
  obtain ⟨hstep, hpc⟩ := hi.active hs hout ht
  obtain ⟨htask, -⟩ := hs.active_ne ht
  obtain ⟨rfl, -⟩ := getActiveTask_eq_some ht
  rw [hstep _ rfl, act, assert_pos hpc, assert_pos hne]
  refine ⟨_, rfl, ?_⟩
  have hexit : InTree { s with activeTask := 0, state := update s.state s.activeTask .Zombie }
      { h with tree := { h.tree with zombie := update h.tree.zombie s.activeTask true } } :=
    { hi with zombie := by rw [hi.zombie, comp_update]; rfl }
  have hnotify := hexit.notify (t := s.activeTask) fun p hp => by
    obtain ⟨-, hz, -, hw⟩ := ((hs.exit hout.1 hout.2).cond _ htask).2 p hp
    exact ⟨hz, hw⟩
  exact { hnotify with }

theorem InTree.wait (hi : InTree s h) (hs : Sound s) (hout : s.Outside) (hne : child ≠ ANY)
    (hw : s.wait child = some s') :
    ∃ h', Tasks.step h (.wait s.activeTask child) = some h' ∧ InTree s' h' := by
  obtain ⟨t, ht, hw⟩ := of_bind hw
  obtain ⟨hstep, hpc⟩ := hi.active hs hout ht
  obtain ⟨-, hz⟩ := hs.active_ne ht
  obtain ⟨rfl, -⟩ := getActiveTask_eq_some ht
  have hstay : h.goto s.activeTask .run = h := by rw [State.goto, ← hpc, update_eq_self]
  have hgo : ∀ w : Waiting, update h.pc s.activeTask w.place
      = Waiting.place ∘ update s.waiting s.activeTask w := fun w => by rw [comp_update, hi.place]
  rw [hstep _ rfl, act, assert_pos hpc, bind_eq_bind, bind_some, Tasks.wait, if_neg hne, waitFor,
    hi.tasks, hi.parent]
  split at hw
  · rename_i hchild
    obtain ⟨p, hp, hw⟩ := of_bind hw
    rw [if_pos hchild, hp, bind_eq_bind, bind_some]
    split at hw
    · rename_i hpt
      cases hw
      rw [if_neg hpt, hstay]
      exact ⟨h, rfl, hi⟩
    rename_i hpt
    rw [if_pos (Decidable.of_not_not hpt)]
    refine ⟨_, rfl, ?_⟩
    split at hw
    · cases hw
      exact { hi with place := hgo (.ended child) }
    · obtain ⟨t, ht', hw⟩ := of_bind hw
      cases hw
      obtain rfl : t = s.activeTask := (getActiveTask_eq_some ht').1
      exact { hi with
        zombie := hi.zombie.trans (comp_update_same (by simp [hz])).symm
        place := hgo (.cond child) }
  · rename_i hchild
    cases hw
    rw [if_neg hchild, hstay]
    exact ⟨h, rfl, hi⟩

end

/-! ## Semaphores and condition variables -/

section

open Fifo

variable {S C : Type} [DecidableEq S] [DecidableEq C] {σ : Sync.State S C} {m : S} {c : C}

/-- The machine is in the same state, and `c` is the `stateCond` of `t`. -/
structure OnMachine (t : Tid) (c : C) (s : TaskManager) (σ : Sync.State S C) : Prop where
  active : σ.active = s.getActiveTask
  state : σ.taskState = s.state
  waiters : Represents σ.condWaiter.next (σ.cond c).waiters ((s.stateCond t).map .task)

/-- An exit goes through there too, while nobody has the `stateMutex`. -/
theorem OnMachine.terminateCurrentTask {flag : Bool} (h : OnMachine s.activeTask c s σ)
    (hc : 0 < (σ.sem m).count) (hq : (σ.sem m).waiters = Ends.empty)
    (he : s.terminateCurrentTask flag = some s') :
    ∃ σ', Sync.terminateCurrentTask flag σ m c = some σ' ∧ OnMachine s.activeTask c s' σ' := by
  obtain ⟨hflag, he⟩ := of_assert he
  obtain ⟨t, ht, he⟩ := of_bind he
  obtain ⟨hne, he⟩ := of_assert he
  cases he
  obtain ⟨rfl, -⟩ := getActiveTask_eq_some ht
  have hw : Represents σ.condWaiter.next ((Sync.exiting σ s.activeTask m).cond c).waiters _ :=
    h.waiters
  rw [hflag, Sync.terminate_of_free (h.active.trans ht) hne hc hq, Sync.notifyOneNow, hw.first]
  have hstate : update σ.taskState s.activeTask .Zombie = update s.state s.activeTask .Zombie := by
    rw [h.state]
  cases hl : s.stateCond s.activeTask with
  | nil =>
    rw [hl] at hw
    simp only [List.map_nil, List.head?_nil, TaskManager.notify, hl]
    rw [assert_pos (show _ = none from hw.last)]
    exact ⟨_, rfl, rfl, hstate, h.waiters⟩
  | cons p rest =>
    rw [hl] at hw
    simp only [List.map_cons, List.head?_cons, TaskManager.notify, hl]
    refine ⟨_, rfl, rfl, ?_, ?_⟩
    · show update (update σ.taskState s.activeTask .Zombie) p .Runnable = _
      rw [hstate]
      rfl
    · show Represents σ.condWaiter.next ((Sync.unlinkCond (Sync.exiting σ s.activeTask m) c).cond
        c).waiters ((update s.stateCond s.activeTask rest _).map _)
      rw [update_self, Sync.unlinkCond_waiters]
      exact hw.pop

end

end Flix.Tasks.Ticking

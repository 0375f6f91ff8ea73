import Flix.Sync.WakeUp

/-!
# Waiting for a child to exit

`TaskManager::wait` and `TaskManager::terminateCurrentTask` meet at the child's
`stateMutex` and `stateCond`. The exiting child asserts that interrupts are disabled, and
gives up its place as the active task *before* it takes the mutex. So it must not find the
mutex taken: the contended path of `Semaphore::down` asks for the active task, and there is
none. But the parent can be preempted while it holds the mutex, between the lock and the
release inside `CondVar::wait`. And interrupts are disabled in a handler that is entered
through a gate, but the `syscall` instruction leaves them as they were.

The system here has the parent's call of `wait`, section by section, on top of
the machine of `Model`, and the child's exit as the one section that it is.
-/

namespace Flix.Sync

open Function Fifo Runs

/-! ## The system -/

/-- Where the parent is in `TaskManager::wait`. -/
inductive ParentPc where
  /-- Not in `wait`, or about to look up the child. -/
  | idle
  /-- About to lock `stateMutex`. -/
  | start
  /-- About to look at the state of the child. -/
  | locked
  /-- The child was alive: about to wait on `stateCond`. -/
  | mustWait
  /-- About to unlock `stateMutex`. -/
  | tested
  /-- About to remove the child. -/
  | unlocked
  deriving DecidableEq

/-- A parent, its child, and the machine they run on. The only mutex is the child's
`stateMutex`, the only condition variable its `stateCond`. -/
structure Family where
  sys : State Unit Unit
  parent : ParentPc
  /-- Ghost: what the calls of `wait` have returned, with `none` for -1. -/
  results : List (Option Tid)
  /-- Ghost: how often the child was removed from `_tasks`. -/
  removed : Nat

inductive FamilyAction where
  /-- The parent goes on in `TaskManager::wait`. -/
  | parent
  /-- The parent goes on inside a call it has made. -/
  | advance (next : Option Tid)
  | timer (next : Option Tid)
  /-- The child exits, with the interrupt flag as it is then, and `next` runs. -/
  | terminate (flag : Bool) (next : Option Tid)

section
variable {S C : Type} [DecidableEq S] [DecidableEq C]

/-- The whole of `CondVar::notify_one`, where nothing can come in between. -/
def notifyOneNow (σ : State S C) (c : C) : Option (State S C) :=
  match (σ.cond c).waiters.first with
  | none => do
      assert ((σ.cond c).waiters.last = none)
      some σ
  | some w => do
      let t ← w.tid
      some (wakeUpTask (setUp (unlinkCond σ c) w) t)

/-- `TaskManager::terminateCurrentTask` up to `scheduleNext`, for a task whose `stateMutex`
is `m` and whose `stateCond` is `c`. Bit 9 of `rflags` is `flag`. -/
def terminateCurrentTask (flag : Bool) (σ : State S C) (m : S) (c : C) : Option (State S C) := do
  assert (flag = false)
  let t ← σ.active
  -- "PID 1 is dead"
  assert (t ≠ 1)
  let σ ← down { σ with active := none } (.task t) m false
  let σ ← notifyOneNow { σ with taskState := update σ.taskState t .Zombie } c
  up σ (.task t) m

end

/-- A section of `TaskManager::wait` on the child. The check that the caller is its parent
succeeds. -/
def parentStep (child : Tid) (w : Family) : Option Family :=
  match w.parent with
  | .idle =>
    if child ∈ w.sys.tasks then some { w with parent := .start }
    else some { w with results := none :: w.results }
  | .start => do
      let σ ← step w.sys (.call (.down ()))
      some { w with sys := σ, parent := .locked }
  | .locked =>
    some { w with parent := if w.sys.taskState child = .Zombie then .tested else .mustWait }
  | .mustWait => do
      let σ ← step w.sys (.call (.wait () ()))
      some { w with sys := σ, parent := .tested }
  | .tested => do
      let σ ← step w.sys (.call (.up ()))
      some { w with sys := σ, parent := .unlocked }
  | .unlocked => do
      assert (child ∈ w.sys.tasks)
      some { sys := { w.sys with tasks := w.sys.tasks.erase child }
             parent := .idle
             results := some child :: w.results
             removed := w.removed + 1 }

def familyStep (parent child : Tid) (w : Family) : FamilyAction → Option Family
  | .parent => do
      assert (w.sys.cur = some (.task parent))
      assert (w.sys.pc (.task parent) = .run)
      parentStep child w
  | .advance next => do
      let σ ← step w.sys (.advance next)
      some { w with sys := σ }
  | .timer next => do
      let σ ← step w.sys (.timer next)
      some { w with sys := σ }
  | .terminate flag next => do
      assert (w.sys.cur = some (.task child))
      let σ ← terminateCurrentTask flag w.sys () ()
      let σ ← scheduleNext σ next
      some { w with sys := σ }

def familyInit (garbage : Unit → Nat) (tasks : List Tid) : Family where
  sys := init (fun _ => 1) garbage tasks
  parent := .idle
  results := []
  removed := 0

/-- The child exits only with interrupts disabled, and while its `stateMutex` is free. -/
def MutexFreeAtExit (w : Family) : FamilyAction → Prop
  | .terminate flag _ => flag = false ∧ 0 < (w.sys.sem ()).count
  | _ => True

/-- The contract of the protocol. -/
structure WaitExitOk (parent child : Tid) (w : Family) : Prop where
  /-- `wait` returns the child's identifier only after the child is a zombie. -/
  returns : some child ∈ w.results → w.sys.taskState child = .Zombie
  /-- It does so once, when it removes the child. -/
  once : w.removed ≤ 1 ∧ w.results.count (some child) = w.removed
    ∧ (child ∈ w.sys.tasks ↔ w.removed = 0)
  /-- The parent does not sleep on `stateCond` once the child is a zombie. -/
  awake : w.sys.taskState child = .Zombie → (w.sys.pc (.task parent)).sleepsOn ≠ none →
    w.sys.taskState parent ≠ .Sleeping
  /-- An exiting child reaches `scheduleNext` exactly when interrupts are disabled and it finds
  the mutex free. -/
  exits : w.sys.cur = some (.task child) → ∀ flag,
    ((terminateCurrentTask flag w.sys () ()).isSome ↔ flag = false ∧ 0 < (w.sys.sem ()).count)

/-! ## The phases of the protocol -/

theorem up_of_empty {S C : Type} [DecidableEq S] {σ : State S C} {x : Ctx} {m : S}
    (h : (σ.sem m).waiters = Ends.empty) : up σ x m = some (giveBack σ x m) := by
  rw [up, h]
  rfl

/-- What goes on between the parent and the mutex. -/
inductive Phase (parent child : Tid) (w : Family) : Prop where
  /-- The parent is in its own code and does not hold the mutex. -/
  | outside (hp : w.parent = .idle ∨ w.parent = .start ∨ w.parent = .unlocked)
      (hpc : w.sys.pc (.task parent) = .run) (hc : (w.sys.sem ()).count = 1)
      (hl : (w.sys.cond ()).waiters = Ends.empty) (hs : w.sys.taskState parent ≠ .Sleeping)
      (hz : w.parent = .unlocked → w.sys.taskState child = .Zombie)
  /-- It is in its own code and holds the mutex. -/
  | inside (hp : w.parent = .locked ∨ w.parent = .mustWait ∨ w.parent = .tested)
      (hpc : w.sys.pc (.task parent) = .run) (hc : (w.sys.sem ()).count = 0)
      (hl : (w.sys.cond ()).waiters = Ends.empty) (hs : w.sys.taskState parent ≠ .Sleeping)
      (hw : w.parent = .mustWait → w.sys.taskState child ≠ .Zombie)
      (hz : w.parent = .tested → w.sys.taskState child = .Zombie)
  /-- It sleeps on `stateCond`, and the child is alive. -/
  | asleep (hp : w.parent = .tested) (hpc : (w.sys.pc (.task parent)).sleepsOn = some ())
      (hc : (w.sys.sem ()).count = 1)
      (hl : (w.sys.cond ()).waiters = ⟨some (.task parent), some (.task parent)⟩)
      (hn : w.sys.condWaiter.next (.task parent) = none)
      (hs : w.sys.taskState parent = .Sleeping) (hz : w.sys.taskState child ≠ .Zombie)
      (ha : w.sys.active = some parent → (w.sys.pc (.task parent)).isSaved = false)
  /-- The child has exited and woken it; it has not locked the mutex again. -/
  | woken (hp : w.parent = .tested)
      (hpc : w.sys.pc (.task parent) ∈
        [.waitSleep () (), .waitSaved () (), .waitWoken () (), .waitLock ()])
      (hc : (w.sys.sem ()).count = 1) (hl : (w.sys.cond ()).waiters = Ends.empty)
      (hu : w.sys.condWaiter.up (.task parent) = true)
      (hs : w.sys.taskState parent ≠ .Sleeping) (hz : w.sys.taskState child = .Zombie)

/-- What holds of parent and child in every state. -/
structure FamilyInv (parent child : Tid) (w : Family) : Prop where
  phase : Phase parent child w
  /-- Nobody queues for the mutex: the child takes it only for a moment. -/
  noQueue : (w.sys.sem ()).waiters = Ends.empty
  noHandler : ∀ x, w.sys.handler x = none
  /-- Nobody but the parent is inside a call. -/
  others : ∀ x, x ≠ .task parent → w.sys.pc x = .run
  nodup : w.sys.tasks.Nodup
  /-- The child is there until it is removed, which the parent does once. -/
  alive : w.removed = 0 → child ∈ w.sys.tasks ∧ some child ∉ w.results
  gone : w.removed ≠ 0 → w.removed = 1 ∧ child ∉ w.sys.tasks ∧ w.results.count (some child) = 1
    ∧ w.parent = .idle ∧ w.sys.taskState child = .Zombie

variable {parent child : Tid} {w w' : Family} {σ : State Unit Unit}

theorem FamilyInv.cur_iff (h : FamilyInv parent child w) {t : Tid} :
    w.sys.cur = some (.task t) ↔ w.sys.active = some t := by
  unfold State.cur
  cases ha : w.sys.active with
  | none => simp
  | some u => simp [h.noHandler]

/-- A step of the machine that leaves the tasks and the other contexts alone. -/
theorem FamilyInv.of_phase (h : FamilyInv parent child w) {p : ParentPc}
    (hphase : Phase parent child { w with sys := σ, parent := p })
    (hq : (σ.sem ()).waiters = Ends.empty) (hh : σ.handler = w.sys.handler)
    (ho : ∀ x, x ≠ .task parent → σ.pc x = w.sys.pc x) (ht : σ.tasks = w.sys.tasks)
    (hz : w.sys.taskState child = .Zombie → σ.taskState child = .Zombie)
    (hp : p = w.parent ∨ w.removed = 0) :
    FamilyInv parent child { w with sys := σ, parent := p } where
  phase := hphase
  noQueue := hq
  noHandler x := by rw [hh]; exact h.noHandler x
  others x hx := by rw [ho x hx]; exact h.others x hx
  nodup := by rw [ht]; exact h.nodup
  alive hr := by rw [ht]; exact h.alive hr
  gone hr := by
    obtain ⟨h1, h2, h3, h4, h5⟩ := h.gone hr
    obtain rfl : p = w.parent := hp.resolve_right hr
    rw [ht]
    exact ⟨h1, h2, h3, h4, hz h5⟩

/-- Once the parent is past the lookup, the child has not been removed. -/
theorem FamilyInv.not_removed (h : FamilyInv parent child w) (hp : w.parent ≠ .idle) :
    w.removed = 0 := by
  by_contra hr
  exact hp (h.gone hr).2.2.2.1

/-! ## The parent's sections -/

variable {σ' : State Unit Unit} {next : Option Tid}

theorem call_of_cur {op : Call Unit Unit} {x : Ctx}
    (h : step σ (.call op) = some σ') (hx : σ.cur = some x) (hh : σ.handler x = none) :
    call σ x op = some σ' := by
  obtain ⟨y, k, hy, -, hk, hc⟩ := step_call_inv h
  obtain rfl : x = y := mem_unique hx hy
  rcases hk with ⟨-, rfl⟩ | ⟨rest, hk, -⟩
  · exact hc
  · rw [hh] at hk; cases hk

/-- Before the lock and after the unlock, the mutex is free. -/
theorem Phase.of_outside (h : Phase parent child w)
    (hp : w.parent = .idle ∨ w.parent = .start ∨ w.parent = .unlocked) :
    (w.sys.sem ()).count = 1 ∧ (w.sys.cond ()).waiters = Ends.empty
      ∧ w.sys.taskState parent ≠ .Sleeping
      ∧ (w.parent = .unlocked → w.sys.taskState child = .Zombie) := by
  cases h with
  | outside _ _ hc hl hs hz => exact ⟨hc, hl, hs, hz⟩
  | inside hp' => rcases hp with hp | hp | hp <;> simp [hp] at hp'
  | asleep hp' => rcases hp with hp | hp | hp <;> simp [hp] at hp'
  | woken hp' => rcases hp with hp | hp | hp <;> simp [hp] at hp'

/-- Between the two, in its own code, the parent holds it. -/
theorem Phase.of_inside (h : Phase parent child w) (hrun : w.sys.pc (.task parent) = .run)
    (hp : w.parent = .locked ∨ w.parent = .mustWait ∨ w.parent = .tested) :
    (w.sys.sem ()).count = 0 ∧ (w.sys.cond ()).waiters = Ends.empty
      ∧ w.sys.taskState parent ≠ .Sleeping
      ∧ (w.parent = .mustWait → w.sys.taskState child ≠ .Zombie)
      ∧ (w.parent = .tested → w.sys.taskState child = .Zombie) := by
  cases h with
  | outside hp' => rcases hp with hp | hp | hp <;> simp [hp] at hp'
  | inside _ _ hc hl hs hw hz => exact ⟨hc, hl, hs, hw, hz⟩
  | asleep _ hpc => rw [hrun] at hpc; cases hpc
  | woken _ hpc => simp [hrun] at hpc

/-- `stateMutex.lock()` on the free mutex, at the start of `wait` and at the end of
`CondVar::wait`. -/
theorem FamilyInv.lock (h : FamilyInv parent child w) {g : Ghost Unit}
    {r : Bool} {p : ParentPc} (hc : (w.sys.sem ()).count = 1)
    (hl : (w.sys.cond ()).waiters = Ends.empty) (hs : w.sys.taskState parent ≠ .Sleeping)
    (hp : p = .locked ∨ p = .tested ∧ w.sys.taskState child = .Zombie) (hr : w.removed = 0)
    (hd : down { w.sys with ghost := g } (.task parent) () r = some σ') :
    FamilyInv parent child { w with sys := σ', parent := p } := by
  have hpos : 0 < (w.sys.sem ()).count := by omega
  rw [down, if_pos hpos] at hd
  cases hd
  refine h.of_phase (.inside ?_ ?_ ?_ hl hs ?_ ?_) ?_ rfl (fun x hx => update_of_ne hx ..) rfl
    id (.inr hr)
  · rcases hp with rfl | ⟨rfl, -⟩ <;> simp
  · exact update_self ..
  · simp [finishDown, takePermit, hc]
  · rintro rfl; simp at hp
  · rintro rfl
    have hz : w.sys.taskState child = .Zombie := by simpa using hp
    exact hz
  · simp [finishDown, takePermit, h.noQueue]

theorem FamilyInv.unlock (h : FamilyInv parent child w)
    (hrun : w.sys.pc (.task parent) = .run) (hp : w.parent = .tested)
    (hu : up w.sys (.task parent) () = some σ') :
    FamilyInv parent child { w with sys := σ', parent := .unlocked } := by
  obtain ⟨hc, hl, hs, -, hz⟩ := h.phase.of_inside hrun (by simp [hp])
  rw [up_of_empty h.noQueue] at hu
  cases hu
  refine h.of_phase (.outside (by simp) hrun ?_ hl hs fun _ => hz hp) ?_ rfl (fun _ _ => rfl) rfl
    id (.inr (h.not_removed (by simp [hp])))
  · simp [giveBack, hc]
  · simp [giveBack, h.noQueue]

/-- `stateCond.wait(stateMutex)` up to `putMeToSleep`. -/
theorem FamilyInv.beginWait (h : FamilyInv parent child w)
    (hpc : parent ≠ child) (hrun : w.sys.pc (.task parent) = .run)
    (hactive : w.sys.active = some parent) (hp : w.parent = .mustWait)
    (hw : wait w.sys (.task parent) () () = some σ') :
    FamilyInv parent child { w with sys := σ', parent := .tested } := by
  obtain ⟨hc, hl, hs, halive, -⟩ := h.phase.of_inside hrun (by simp [hp])
  obtain ⟨t, σ1, ht, hu, rfl⟩ := waitRound_inv (wait_inv hw)
  obtain rfl : parent = t := mem_unique hactive ht
  rw [up_of_empty (by simp [prepareMeForSleep, linkCond, h.noQueue])] at hu
  cases hu
  have hchild : update w.sys.taskState parent .Sleeping child = w.sys.taskState child :=
    update_of_ne hpc.symm ..
  refine h.of_phase (.asleep rfl ?_ ?_ ?_ ?_ ?_ ?_ ?_) ?_ rfl
    (fun x hx => State.setPc_of_ne _ hx _) rfl ?_ (.inr (h.not_removed (by simp [hp])))
  · simp [Pc.sleepsOn]
  · simp [State.setPc, giveBack, prepareMeForSleep, linkCond, hc]
  · simp [State.setPc, giveBack, prepareMeForSleep, linkCond, hl, Ends.push, Ends.empty]
  · simp [State.setPc, giveBack, prepareMeForSleep, linkCond, hl, Ends.pushNext, Ends.empty]
  · exact update_self ..
  · exact hchild.trans_ne (halive hp)
  · intro _
    simp [Pc.isSaved]
  · simp [State.setPc, giveBack, prepareMeForSleep, linkCond, h.noQueue]
  · exact fun hz => hchild.trans hz

/-- The parent's own steps. -/
theorem familyInv_parent (h : FamilyInv parent child w) (hpc : parent ≠ child)
    (hcur : w.sys.cur = some (.task parent)) (hrun : w.sys.pc (.task parent) = .run)
    (hstep : parentStep child w = some w') : FamilyInv parent child w' := by
  have ha : w.sys.active = some parent := h.cur_iff.mp hcur
  have hh := h.noHandler (.task parent)
  unfold parentStep at hstep
  cases hw : w.parent with
  | idle =>
    obtain ⟨hc, hl, hs, -⟩ := h.phase.of_outside (.inl hw)
    rw [hw] at hstep
    dsimp only at hstep
    split at hstep <;> cases hstep
    · refine h.of_phase (.outside (by simp) hrun hc hl hs (by simp)) h.noQueue rfl
        (fun _ _ => rfl) rfl id (.inr ?_)
      by_contra hr
      exact (h.gone hr).2.1 ‹_›
    · have hr : w.removed ≠ 0 := fun hr => absurd (h.alive hr).1 ‹_›
      exact {
        phase := .outside (.inl rfl) hrun hc hl hs (by simp)
        noQueue := h.noQueue
        noHandler := h.noHandler
        others := h.others
        nodup := h.nodup
        alive := fun hr' => absurd hr' hr
        gone := fun _ => by
          obtain ⟨h1, h2, h3, -, h5⟩ := h.gone hr
          exact ⟨h1, h2, by simpa using h3, rfl, h5⟩ }
  | start =>
    obtain ⟨hc, hl, hs, -⟩ := h.phase.of_outside (.inr (.inl hw))
    rw [hw] at hstep
    obtain ⟨σ', hσ, hstep⟩ := of_bind hstep
    cases hstep
    exact h.lock hc hl hs (.inl rfl) (h.not_removed (by simp [hw])) (call_of_cur hσ hcur hh)
  | locked =>
    obtain ⟨hc, hl, hs, -⟩ := h.phase.of_inside hrun (.inl hw)
    rw [hw] at hstep
    cases hstep
    refine h.of_phase (.inside ?_ hrun hc hl hs ?_ ?_) h.noQueue rfl (fun _ _ => rfl) rfl id
      (.inr (h.not_removed (by simp [hw])))
    · dsimp only; split <;> simp
    · dsimp only; split <;> simp_all
    · dsimp only; split <;> simp_all
  | mustWait =>
    rw [hw] at hstep
    obtain ⟨σ', hσ, hstep⟩ := of_bind hstep
    cases hstep
    exact h.beginWait hpc hrun ha hw (call_of_cur hσ hcur hh)
  | tested =>
    rw [hw] at hstep
    obtain ⟨σ', hσ, hstep⟩ := of_bind hstep
    cases hstep
    exact h.unlock hrun hw (call_of_cur hσ hcur hh)
  | unlocked =>
    obtain ⟨hc, hl, hs, hz⟩ := h.phase.of_outside (.inr (.inr hw))
    rw [hw] at hstep
    obtain ⟨hmem, hstep⟩ := of_assert hstep
    cases hstep
    have hr := h.not_removed (by simp [hw])
    exact {
      phase := .outside (.inl rfl) hrun hc hl hs (by simp)
      noQueue := h.noQueue
      noHandler := h.noHandler
      others := h.others
      nodup := h.nodup.erase _
      alive := fun e => by simp at e
      gone := fun _ => by
        refine ⟨by simp [hr], h.nodup.not_mem_erase, ?_, rfl, hz hw⟩
        rw [List.count_cons_self, List.count_eq_zero_of_not_mem (h.alive hr).2] }

/-! ## Inside `CondVar::wait` -/

theorem Phase.reschedule (h : Phase parent child w)
    (hn : ∀ t, next = some t → w.sys.taskState t = .Runnable) :
    Phase parent child { w with sys := { w.sys with active := next } } := by
  cases h with
  | outside hp hpc hc hl hs hz => exact .outside hp hpc hc hl hs hz
  | inside hp hpc hc hl hs hw hz => exact .inside hp hpc hc hl hs hw hz
  | asleep hp hpc hc hl hn' hs hz ha =>
    refine .asleep hp hpc hc hl hn' hs hz fun e => ?_
    -- the parent is not runnable
    have := hn parent e
    rw [hs] at this
    cases this
  | woken hp hpc hc hl hu hs hz => exact .woken hp hpc hc hl hu hs hz

theorem familyInv_reschedule (h : FamilyInv parent child w)
    (hs : scheduleNext w.sys next = some σ) : FamilyInv parent child { w with sys := σ } := by
  obtain ⟨rfl, hn⟩ := scheduleNext_eq hs
  exact h.of_phase (h.phase.reschedule fun t e => (hn t e).2) h.noQueue rfl (fun _ _ => rfl) rfl id
    (.inl rfl)

/-- The parent, awake, goes on to the next place in `CondVar::wait`. -/
theorem FamilyInv.goOn (h : FamilyInv parent child w) {p : Pc Unit Unit}
    (hp : w.parent = .tested)
    (hpc : p ∈ [.waitSleep () (), .waitSaved () (), .waitWoken () (), .waitLock ()])
    (hc : (w.sys.sem ()).count = 1) (hl : (w.sys.cond ()).waiters = Ends.empty)
    (hu : w.sys.condWaiter.up (.task parent) = true)
    (hs : w.sys.taskState parent ≠ .Sleeping) (hz : w.sys.taskState child = .Zombie) :
    FamilyInv parent child { w with sys := w.sys.setPc (.task parent) p } := by
  refine h.of_phase (.woken hp ?_ hc hl hu hs hz) h.noQueue rfl
    (fun x hx => State.setPc_of_ne _ hx _) rfl id (.inl rfl)
  rw [State.setPc_self]
  exact hpc

/-- The parent's steps inside `CondVar::wait`. -/
theorem familyInv_advance (h : FamilyInv parent child w)
    (hs : step w.sys (.advance next) = some σ) : FamilyInv parent child { w with sys := σ } := by
  obtain ⟨x, hx, hadv⟩ := of_bind hs
  obtain ⟨t, rfl⟩ := State.handler_of_cur hx (h.noHandler x)
  have hrun : w.sys.pc (.task t) ≠ .run := by
    intro hrun
    simp [advance, hrun, h.noHandler] at hadv
  obtain rfl : t = parent := by
    by_contra hne
    exact hrun (h.others _ (by simpa using hne))
  have ha : w.sys.active = some t := h.cur_iff.mp hx
  cases h.phase with
  | outside _ hpc => exact absurd hpc hrun
  | inside _ hpc => exact absurd hpc hrun
  | asleep hp hpc hc hl hn hsl hz hsv =>
    cases hq : w.sys.pc (.task t) with
    | waitSleep c m =>
      simp only [advance, hq] at hadv
      obtain ⟨u, hu, hput⟩ := putMeToSleep_eq hadv
      obtain rfl : t = u := mem_unique ha hu
      rcases hput with ⟨-, hsched⟩ | ⟨hns, -⟩
      · obtain ⟨rfl, hnext⟩ := scheduleNext_eq hsched
        refine h.of_phase (.asleep hp ?_ hc hl hn hsl hz fun e => ?_) h.noQueue rfl
          (fun y hy => State.setPc_of_ne _ hy _) rfl id (.inl rfl)
        · simp [Pc.sleepsOn]
        · -- it does not go on itself: it is not runnable
          have := (hnext t e).2
          rw [show (w.sys.setPc _ _).taskState t = _ from hsl] at this
          cases this
      · exact absurd hsl hns
    | waitSaved c m =>
      have := hsv ha
      simp [hq, Pc.isSaved] at this
    | _ => simp [hq, Pc.sleepsOn] at hpc
  | woken hp hpc hc hl hu hns hz =>
    simp only [mem_cons, not_mem_nil, or_false] at hpc
    rcases hpc with hq | hq | hq | hq <;> simp only [advance, hq] at hadv
    · obtain ⟨u, hu', hput⟩ := putMeToSleep_eq hadv
      obtain rfl : t = u := mem_unique ha hu'
      rcases hput with ⟨hsl, -⟩ | ⟨-, rfl⟩
      · exact absurd hsl hns
      · exact h.goOn hp (by simp) hc hl hu hns hz
    · cases hadv
      exact h.goOn hp (by simp) hc hl hu hns hz
    · rw [if_pos hu] at hadv
      cases hadv
      exact h.goOn hp (by simp) hc hl hu hns hz
    · have := h.lock hc hl hns (.inr ⟨hp, hz⟩) (h.not_removed (by simp [hp])) hadv
      exact this

/-! ## The child's exit -/

section
variable {S C : Type} [DecidableEq S] [DecidableEq C] {σ : State S C} {t p : Tid} {m : S} {c : C}

/-- `t` is a zombie and holds its own mutex. -/
def exiting (σ : State S C) (t : Tid) (m : S) : State S C :=
  { finishDown (takePermit { σ with active := none } (.task t) m) (.task t) m false with
    taskState := update σ.taskState t .Zombie }

omit [DecidableEq S] in
theorem notifyOneNow_sem {σ₁ : State S C} (h : notifyOneNow σ c = some σ₁) : σ₁.sem = σ.sem := by
  unfold notifyOneNow at h
  split at h
  · obtain ⟨-, h⟩ := of_assert h
    cases h
    rfl
  · obtain ⟨p, -, h⟩ := of_bind h
    cases h
    rfl

theorem terminate_of_free (ha : σ.active = some t) (hne : t ≠ 1) (hc : 0 < (σ.sem m).count)
    (hq : (σ.sem m).waiters = Ends.empty) : terminateCurrentTask false σ m c
      = (notifyOneNow (exiting σ t m) c).map fun σ => giveBack σ (.task t) m := by
  rw [terminateCurrentTask, assert_pos rfl, bind_eq_bind, bind_some, ha, bind_eq_bind, bind_some,
    assert_pos hne]
  rw [down, if_pos hc]
  show (notifyOneNow (exiting σ t m) c).bind (fun σ => up σ (.task t) m) = _
  cases hn : notifyOneNow (exiting σ t m) c with
  | none => rfl
  | some σ₁ =>
    refine up_of_empty ?_
    rw [notifyOneNow_sem hn]
    simp [exiting, finishDown, takePermit, hq]

/-- The contended path of `Semaphore::down` asks for the active task. -/
theorem terminate_of_taken (ha : σ.active = some t) (hc : (σ.sem m).count = 0) :
    terminateCurrentTask false σ m c = none := by
  have hd : down { σ with active := none } (.task t) m false = none := by
    rw [down, if_neg (by simp [hc])]
    rfl
  rw [terminateCurrentTask, assert_pos rfl, ha]
  simp only [bind_eq_bind, bind_some, hd]
  cases assert (t ≠ 1) <;> rfl

/-- What an exit by `t` leaves as it is, and the mutex and the condition it leaves behind. -/
structure Exited (t : Tid) (m : S) (c : C) (σ σ' : State S C) : Prop where
  pc : σ'.pc = update σ.pc (.task t) .run
  handler : σ'.handler = σ.handler
  tasks : σ'.tasks = σ.tasks
  count : (σ'.sem m).count = 1
  noQueue : (σ'.sem m).waiters = Ends.empty
  noWaiter : (σ'.cond c).waiters = Ends.empty

omit [DecidableEq C] in
theorem exiting_sem (hc : (σ.sem m).count = 1) (hq : (σ.sem m).waiters = Ends.empty) :
    (exiting σ t m).sem m = { count := 0, waiters := Ends.empty } := by
  simp [exiting, finishDown, takePermit, hc, hq]

omit [DecidableEq C] in
theorem exited_of_giveBack {σ1 : State S C}
    (hsem : σ1.sem m = { count := 0, waiters := Ends.empty })
    (hpc : σ1.pc = update σ.pc (.task t) .run) (hh : σ1.handler = σ.handler)
    (ht : σ1.tasks = σ.tasks) (hl : (σ1.cond c).waiters = Ends.empty) :
    Exited t m c σ (giveBack σ1 (.task t) m) where
  pc := hpc
  handler := hh
  tasks := ht
  count := by simp [giveBack, hsem]
  noQueue := by simp [giveBack, hsem]
  noWaiter := hl

theorem terminate_unnoticed (hne : t ≠ 1) (ha : σ.active = some t)
    (hc : (σ.sem m).count = 1) (hq : (σ.sem m).waiters = Ends.empty)
    (hl : (σ.cond c).waiters = Ends.empty) :
    ∃ σ', terminateCurrentTask false σ m c = some σ' ∧ Exited t m c σ σ'
      ∧ σ'.taskState = update σ.taskState t .Zombie ∧ σ'.condWaiter = σ.condWaiter := by
  have hl' : ((exiting σ t m).cond c).waiters = Ends.empty := hl
  have hsem : (exiting σ t m).sem m = _ := exiting_sem hc hq
  have hnotify : notifyOneNow (exiting σ t m) c = some (exiting σ t m) := by
    rw [notifyOneNow, hl']
    rfl
  refine ⟨giveBack (exiting σ t m) (.task t) m, ?_, exited_of_giveBack hsem rfl rfl rfl hl', rfl, rfl⟩
  rw [terminate_of_free ha hne (by omega) hq, hnotify]
  rfl

omit [DecidableEq S] in
theorem unlinkCond_waiters : ((unlinkCond σ c).cond c).waiters
    = (σ.cond c).waiters.pop σ.condWaiter.next := by
  simp only [unlinkCond, update_self]

theorem terminate_notified (hne : t ≠ 1) (ha : σ.active = some t)
    (hc : (σ.sem m).count = 1) (hq : (σ.sem m).waiters = Ends.empty)
    (hl : (σ.cond c).waiters = ⟨some (.task p), some (.task p)⟩)
    (hn : σ.condWaiter.next (.task p) = none) :
    ∃ σ', terminateCurrentTask false σ m c = some σ' ∧ Exited t m c σ σ'
      ∧ σ'.taskState = update (update σ.taskState t .Zombie) p .Runnable
      ∧ σ'.condWaiter.up (.task p) = true := by
  have hl' : ((exiting σ t m).cond c).waiters = ⟨some (.task p), some (.task p)⟩ := hl
  have hn' : (exiting σ t m).condWaiter.next (.task p) = none := hn
  have hsem : (exiting σ t m).sem m = _ := exiting_sem hc hq
  have hnotify : notifyOneNow (exiting σ t m) c
      = some (wakeUpTask (setUp (unlinkCond (exiting σ t m) c) (.task p)) p) := by
    rw [notifyOneNow, hl']
    rfl
  have hempty : ((unlinkCond (exiting σ t m) c).cond c).waiters = Ends.empty := by
    rw [unlinkCond_waiters, hl', Ends.pop, bind_some, hn', if_pos rfl]
    rfl
  refine ⟨giveBack (wakeUpTask (setUp (unlinkCond (exiting σ t m) c) (.task p)) p) (.task t) m, ?_,
    exited_of_giveBack hsem rfl rfl rfl hempty, rfl, update_self ..⟩
  rw [terminate_of_free ha hne (by omega) hq, hnotify]
  rfl

end

/-- The child's exit, up to `scheduleNext`. -/
theorem familyInv_terminate (h : FamilyInv parent child w) (hpc : parent ≠ child) (hne : child ≠ 1)
    (ha : w.sys.active = some child) (ht : terminateCurrentTask false w.sys () () = some σ) :
    FamilyInv parent child { w with sys := σ } := by
  have hpar : update w.sys.pc (.task child) .run (.task parent) = w.sys.pc (.task parent) :=
    update_of_ne (by simpa using hpc) ..
  have hstate : update w.sys.taskState child .Zombie parent = w.sys.taskState parent :=
    update_of_ne hpc ..
  -- the child was in its own code before, as everybody but the parent
  have hothers : ∀ x, x ≠ .task parent → update w.sys.pc (.task child) .run x = w.sys.pc x := by
    intro x hx
    by_cases hxc : x = .task child
    · subst hxc
      rw [update_self, h.others _ hx]
    · exact update_of_ne hxc ..
  cases h.phase with
  | outside hp hrun hc hl hs hz =>
    obtain ⟨σ', ht', he, hts, -⟩ := terminate_unnoticed hne ha hc h.noQueue hl
    obtain rfl : σ = σ' := mem_unique ht ht'
    have hzombie : σ.taskState child = .Zombie := by rw [hts, update_self]
    refine h.of_phase (.outside hp ?_ he.count he.noWaiter ?_ fun _ => hzombie) he.noQueue
      he.handler (by rw [he.pc]; exact hothers) he.tasks (fun _ => hzombie) (.inl rfl)
    · rw [he.pc, hpar, hrun]
    · rw [hts, hstate]; exact hs
  | inside _ _ hc =>
    rw [terminate_of_taken ha hc] at ht
    cases ht
  | asleep hp hsleep hc hl hn hs hz hsv =>
    obtain ⟨σ', ht', he, hts, hu⟩ := terminate_notified hne ha hc h.noQueue hl hn
    obtain rfl : σ = σ' := mem_unique ht ht'
    have hzombie : σ.taskState child = .Zombie := by
      rw [hts, update_of_ne hpc.symm, update_self]
    refine h.of_phase (.woken hp ?_ he.count he.noWaiter hu ?_ hzombie) he.noQueue
      he.handler (by rw [he.pc]; exact hothers) he.tasks (fun _ => hzombie) (.inl rfl)
    · rw [he.pc]
      cases hq : w.sys.pc (.task parent) <;> rw [hq] at hsleep <;> simp_all [Pc.sleepsOn]
    · simp [hts]
  | woken hp hin hc hl hu hs hz =>
    obtain ⟨σ', ht', he, hts, hcw⟩ := terminate_unnoticed hne ha hc h.noQueue hl
    obtain rfl : σ = σ' := mem_unique ht ht'
    have hzombie : σ.taskState child = .Zombie := by rw [hts, update_self]
    refine h.of_phase (.woken hp ?_ he.count he.noWaiter ?_ ?_ hzombie) he.noQueue
      he.handler (by rw [he.pc]; exact hothers) he.tasks (fun _ => hzombie) (.inl rfl)
    · rw [he.pc, hpar]; exact hin
    · rw [hcw]; exact hu
    · rw [hts, hstate]; exact hs

/-! ## Whole runs -/

theorem familyInv_init (garbage : Unit → Nat) {tasks : List Tid} (hn : tasks.Nodup)
    (hmem : child ∈ tasks) : FamilyInv parent child (familyInit garbage tasks) where
  phase := .outside (.inl rfl) rfl rfl rfl (by simp [familyInit, init]) (by simp [familyInit])
  noQueue := rfl
  noHandler _ := rfl
  others _ _ := rfl
  nodup := hn
  alive _ := ⟨hmem, by simp [familyInit]⟩
  gone hr := absurd rfl hr

theorem familyInv_step (hpc : parent ≠ child) (hne : child ≠ 1) {a : FamilyAction}
    (h : FamilyInv parent child w) (hs : familyStep parent child w a = some w') :
    FamilyInv parent child w' := by
  cases a with
  | parent =>
    obtain ⟨hcur, hs⟩ := of_assert hs
    obtain ⟨hrun, hs⟩ := of_assert hs
    exact familyInv_parent h hpc hcur hrun hs
  | advance next =>
    obtain ⟨σ, hσ, hs⟩ := of_bind hs
    cases hs
    exact familyInv_advance h hσ
  | timer next =>
    obtain ⟨σ, hσ, hs⟩ := of_bind hs
    cases hs
    obtain ⟨-, hσ⟩ := of_assert hσ
    exact familyInv_reschedule h hσ
  | terminate flag next =>
    obtain ⟨hcur, hs⟩ := of_assert hs
    obtain ⟨σ1, hσ1, hs⟩ := of_bind hs
    obtain ⟨σ2, hσ2, hs⟩ := of_bind hs
    cases hs
    obtain ⟨rfl, -⟩ := of_assert hσ1
    have h1 := familyInv_terminate h hpc hne (h.cur_iff.mp hcur) hσ1
    exact familyInv_reschedule (w := { w with sys := σ1 }) h1 hσ2

theorem FamilyInv.exits (h : FamilyInv parent child w) (hne : child ≠ 1)
    (hcur : w.sys.cur = some (.task child)) (flag : Bool) :
    (terminateCurrentTask flag w.sys () ()).isSome ↔ flag = false ∧ 0 < (w.sys.sem ()).count := by
  have ha := h.cur_iff.mp hcur
  cases flag with
  | true => simp [terminateCurrentTask, assert]
  | false =>
    cases h.phase with
    | outside _ _ hc hl =>
      obtain ⟨σ', ht, -⟩ := terminate_unnoticed hne ha hc h.noQueue hl
      simp [ht, hc]
    | inside _ _ hc => simp [terminate_of_taken ha hc, hc]
    | asleep _ _ hc hl hn =>
      obtain ⟨σ', ht, -⟩ := terminate_notified hne ha hc h.noQueue hl hn
      simp [ht, hc]
    | woken _ _ hc hl =>
      obtain ⟨σ', ht, -⟩ := terminate_unnoticed hne ha hc h.noQueue hl
      simp [ht, hc]

theorem FamilyInv.ok (h : FamilyInv parent child w) (hne : child ≠ 1) :
    WaitExitOk parent child w where
  returns hmem := by
    by_cases hr : w.removed = 0
    · exact absurd hmem (h.alive hr).2
    · exact (h.gone hr).2.2.2.2
  once := by
    by_cases hr : w.removed = 0
    · have hcount := List.count_eq_zero_of_not_mem (h.alive hr).2
      exact ⟨by omega, by omega, by simp [hr, (h.alive hr).1]⟩
    · obtain ⟨h1, h2, h3, -⟩ := h.gone hr
      exact ⟨by omega, by omega, by simp [hr, h2]⟩
  awake hz hsleep := by
    cases h.phase with
    | outside _ _ _ _ hs => exact hs
    | inside _ _ _ _ hs => exact hs
    | asleep _ _ _ _ _ _ hz' => exact absurd hz hz'
    | woken _ _ _ _ _ hs => exact hs
  exits := h.exits hne

/--
**The protocol between a waiting parent and its exiting child.**

As long as the child exits only with interrupts disabled and while its `stateMutex` is
free, in every state of every run `wait` has returned the child's identifier only for a
zombie, has removed it at most once, does not sleep through the exit, and the exit reaches
`scheduleNext`.
-/
theorem wait_exit_protocol (garbage : Unit → Nat) (tasks : List Tid) (parent child : Tid)
    (hn : tasks.Nodup) (hmem : child ∈ tasks) (hpc : parent ≠ child) (hne : child ≠ 1)
    (w : Family)
    (hr : Reach (familyStep parent child) MutexFreeAtExit (familyInit garbage tasks) w) :
    WaitExitOk parent child w
      ∧ ∀ flag next, MutexFreeAtExit w (.terminate flag next) →
        w.sys.cur = some (.task child) → (terminateCurrentTask flag w.sys () ()).isSome := by
  have h : FamilyInv parent child w :=
    hr.invariant (familyInv_init garbage hn hmem) fun _ _ _ hi _ hs => familyInv_step hpc hne hi hs
  exact ⟨h.ok hne, fun flag next hfree hcur => (h.exits hne hcur flag).mpr hfree⟩

instance (w : Family) : ∀ a, Decidable (MutexFreeAtExit w a)
  | .parent => .isTrue trivial
  | .advance _ => .isTrue trivial
  | .timer _ => .isTrue trivial
  | .terminate flag _ => inferInstanceAs (Decidable (flag = false ∧ 0 < (w.sys.sem ()).count))

/-- Task 1 waits for task 2, which exits while task 1 sleeps. -/
def exitRun : List FamilyAction :=
  [.timer (some 1), .parent, .parent, .parent, .parent, .timer (some 2),
    .terminate false (some 1), .advance none, .advance none, .advance none, .parent, .parent]

/-- The run ends with `wait` having returned 2. -/
theorem wait_exit_protocol_exitRun :
    ∃ w, Reach (familyStep 1 2) MutexFreeAtExit (familyInit (fun _ => 0) [1, 2]) w
      ∧ w.results = [some 2] ∧ WaitExitOk 1 2 w := by
  have hrun : (guardedRun (familyStep 1 2) MutexFreeAtExit (familyInit (fun _ => 0) [1, 2])
      exitRun).map (fun w => w.results) = some [some 2] := by decide
  obtain ⟨w, hw, hres⟩ := map_eq_some_iff.mp hrun
  have hr := Reach.of_guardedRun hw
  exact ⟨w, hr, hres, (wait_exit_protocol (fun _ => 0) [1, 2] 1 2 (by decide) (by decide)
    (by decide) (by decide) w hr).1⟩

/-- Task 1 is preempted right after it has locked the mutex, and the child runs. -/
def exitIntoLockRun : List FamilyAction :=
  [.timer (some 1), .parent, .parent, .timer (some 2)]

/-- **An exit while the parent holds the mutex fails.** The child does not get to
`scheduleNext`: it asserts that there is an active task, having just resigned. -/
theorem exit_into_lock_fails :
    ∃ w, Reach (familyStep 1 2) (fun _ _ => True) (familyInit (fun _ => 0) [1, 2]) w
      ∧ w.sys.cur = some (.task 2) ∧ w.sys.taskState 2 = .Runnable
      ∧ terminateCurrentTask false w.sys () () = none := by
  have hrun : (run (familyStep 1 2) (familyInit (fun _ => 0) [1, 2]) exitIntoLockRun).map
      (fun w => decide (w.sys.cur = some (.task 2) ∧ w.sys.taskState 2 = .Runnable
        ∧ (terminateCurrentTask false w.sys () ()).isNone = true)) = some true := by decide
  obtain ⟨w, hw, hv⟩ := map_eq_some_iff.mp hrun
  obtain ⟨h1, h2, h3⟩ := of_decide_eq_true hv
  exact ⟨w, Reach.of_run (fun _ _ _ => trivial) hw, h1, h2, Option.isNone_iff_eq_none.mp h3⟩

end Flix.Sync

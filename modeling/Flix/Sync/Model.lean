import Flix.Lib.Fifo
import Flix.Lib.Runs
import Flix.Tasks.Scheduler

/-!
# Tasks, semaphores and condition variables

The blocking primitives of the kernel, as a transition system. There is one
processor: holding a `SpinLock` means running with interrupts disabled, so the
code between taking and dropping one is a single step here, and everything can
be interleaved between two such sections.

What executes is a *context*: a task on its own account, the keyboard interrupt
handler running on top of a task, or the handler that interrupted an idle
processor. Each context has its own stack, hence its own `Waiter` objects, and
its own place in the code, its `Pc`. The timer may switch away from a task
wherever interrupts are enabled, in particular between the release of the
spinlock and `putMeToSleep`. A handler runs with interrupts disabled, and can be
switched away from only by going to sleep itself.

Tasks call the primitives in any order they like; a handler runs the list of
calls it was started with. The `ghost` part of the state records what happened
and is read by no step.
-/

namespace Flix.Sync

open Function Fifo
open Scheduler (TaskState)

abbrev Tid := Nat

/-- What a processor can be executing. -/
inductive Ctx where
  /-- A task, on its own account. -/
  | task (t : Tid)
  /-- The interrupt handler running on top of a task. -/
  | irq (t : Tid)
  /-- The interrupt handler that interrupted an idle processor. -/
  | idleIrq
  deriving DecidableEq, Repr

/-- The task a context runs as: what `_activeTask` holds while it executes. -/
def Ctx.tid : Ctx → Option Tid
  | .task t => some t
  | .irq t => some t
  | .idleIrq => none

/-- The calls a client makes. -/
inductive Call (S C : Type) where
  | down (s : S)
  | up (s : S)
  | wait (c : C) (m : S)
  | notifyOne (c : C)
  | notifyAll (c : C)
  deriving DecidableEq, Repr

/-- Where a context is between two sections. The flag of the `down` places tells the call
at the end of `CondVar::wait` from one made by the client. -/
inductive Pc (S C : Type) where
  /-- In the client's own code. -/
  | run
  /-- In `down`: asleep in name, the spinlock dropped, about to call `putMeToSleep`. -/
  | downSleep (s : S) (relock : Bool)
  /-- In `down`: switched away from inside `putMeToSleep`. -/
  | downSaved (s : S) (relock : Bool)
  /-- In `down`: `putMeToSleep` returned, about to retake the spinlock. -/
  | downWoken (s : S) (relock : Bool)
  /-- The same three places in the loop of `wait`. -/
  | waitSleep (c : C) (m : S)
  | waitSaved (c : C) (m : S)
  | waitWoken (c : C) (m : S)
  /-- In `wait`: the condition has triggered, about to call `waitMutex.lock()`. -/
  | waitLock (m : S)
  /-- In a notifier: about to set `up` of the first of these waiters. -/
  | notify (ws : List Ctx)
  /-- In a notifier: `up` of `w` set, about to call `wakeUpTask` for it. -/
  | notifyWake (w : Ctx) (ws : List Ctx)
  deriving DecidableEq, Repr

/-- The `Waiter` objects, each on the stack of its context. Its `task` is the task of that
context. -/
structure Waiters where
  up : Ctx → Bool
  next : Ctx → Option Ctx

structure Semaphore where
  count : Nat
  /-- `_firstWaiter` and `_lastWaiter`. -/
  waiters : Ends Ctx
  deriving DecidableEq

structure CondVar where
  /-- `_firstWaiter` and `_lastWaiter`. -/
  waiters : Ends Ctx
  waiterCount : Nat
  deriving DecidableEq

/-- What has happened so far. -/
structure Ghost (S : Type) where
  /-- How many `up`s were completed. -/
  ups : S → Nat
  /-- How many `down`s have returned. -/
  returned : S → Nat
  /-- The contexts in the order in which their `down`s reached the semaphore. -/
  arrivals : S → List Ctx
  /-- The contexts in the order in which they were given a permit. -/
  grants : S → List Ctx
  /-- The contexts that were given a permit and have not called `up` since. -/
  held : S → List Ctx
  /-- How many `up`s and `down`s the `wait` in progress has made on its mutex. -/
  waitUps : Ctx → Nat
  waitDowns : Ctx → Nat
  /-- These two numbers for every `wait` that has returned, with its mutex. -/
  waits : List (S × Nat × Nat)

structure State (S C : Type) where
  sem : S → Semaphore
  cond : C → CondVar
  semWaiter : Waiters
  condWaiter : Waiters
  tasks : List Tid
  taskState : Tid → TaskState
  /-- `_activeTask`, with `none` for 0. -/
  active : Option Tid
  /-- The calls an interrupt handler still has to make, `none` where none is running. -/
  handler : Ctx → Option (List (Call S C))
  pc : Ctx → Pc S C
  ghost : Ghost S

variable {S C : Type}

/-! ## Ghost updates -/

section
variable [DecidableEq S]

/-- A `down` by `x` reaches `s`. -/
def Ghost.arrive (g : Ghost S) (x : Ctx) (s : S) : Ghost S :=
  { g with arrivals := update g.arrivals s (g.arrivals s ++ [x]) }

/-- The `down` of `x` on `s` is given its permit. -/
def Ghost.grant (g : Ghost S) (x : Ctx) (s : S) : Ghost S :=
  { g with grants := update g.grants s (g.grants s ++ [x])
           held := update g.held s (x :: g.held s) }

/-- `x` calls `up` on `s`. -/
def Ghost.release (g : Ghost S) (x : Ctx) (s : S) : Ghost S :=
  { g with ups := update g.ups s (g.ups s + 1)
           held := update g.held s ((g.held s).erase x) }

/-- A `down` on `s` returns to `x`, from a `wait` if `relock`. -/
def Ghost.return (g : Ghost S) (x : Ctx) (s : S) (relock : Bool) : Ghost S :=
  { g with returned := update g.returned s (g.returned s + 1)
           waits := if relock then (s, g.waitUps x, g.waitDowns x) :: g.waits else g.waits }

end

/-- The `wait` of `x` begins. -/
def Ghost.beginWait (g : Ghost S) (x : Ctx) : Ghost S :=
  { g with waitUps := update g.waitUps x 0, waitDowns := update g.waitDowns x 0 }

/-- The `wait` of `x` calls `unlock`. -/
def Ghost.waitUp (g : Ghost S) (x : Ctx) : Ghost S :=
  { g with waitUps := update g.waitUps x (g.waitUps x + 1) }

/-- The `wait` of `x` calls `lock`. -/
def Ghost.waitDown (g : Ghost S) (x : Ctx) : Ghost S :=
  { g with waitDowns := update g.waitDowns x (g.waitDowns x + 1) }

/-! ## The task manager -/

/-- The context that is executing, if the processor is not idle. -/
def State.cur (σ : State S C) : Option Ctx :=
  match σ.active with
  | some t => if (σ.handler (.irq t)).isSome then some (.irq t) else some (.task t)
  | none => if (σ.handler .idleIrq).isSome then some .idleIrq else none

/-- Interrupts are enabled in tasks and on an idle processor. -/
def State.interruptible (σ : State S C) : Bool :=
  match σ.cur with
  | none => true
  | some (.task _) => true
  | some _ => false

def State.setPc (σ : State S C) (x : Ctx) (p : Pc S C) : State S C :=
  { σ with pc := update σ.pc x p }

@[simp] theorem State.setPc_self (σ : State S C) (x : Ctx) (p : Pc S C) :
    (σ.setPc x p).pc x = p := update_self ..

theorem State.setPc_of_ne (σ : State S C) {x y : Ctx} (h : y ≠ x) (p : Pc S C) :
    (σ.setPc x p).pc y = σ.pc y := update_of_ne h ..

/-- Moving a context between places that look the same. -/
theorem State.view_setPc {α : Type} (σ : State S C) (f : Pc S C → α) {x : Ctx} {p : Pc S C}
    (h : f p = f (σ.pc x)) (y : Ctx) : f ((σ.setPc x p).pc y) = f (σ.pc y) := by
  by_cases hy : y = x
  · rw [hy, setPc_self, h]
  · rw [setPc_of_ne σ hy]

def prepareMeForSleep (σ : State S C) (t : Tid) : State S C :=
  { σ with taskState := update σ.taskState t .Sleeping }

def wakeUpTask (σ : State S C) (t : Tid) : State S C :=
  { σ with taskState := update σ.taskState t .Runnable }

/-- `scheduleNext`: some runnable task goes on, or none is and the processor idles. The
source picks the next one in the order of task identifiers. -/
def scheduleNext (σ : State S C) (next : Option Tid) : Option (State S C) := do
  assert (∃ t ∈ σ.tasks, σ.taskState t ≠ .Zombie)
  match next with
  | some t => do
      assert (t ∈ σ.tasks ∧ σ.taskState t = .Runnable)
      some { σ with active := some t }
  | none => do
      assert (∀ t ∈ σ.tasks, σ.taskState t ≠ .Runnable)
      some { σ with active := none }

/-! ## `Semaphore` -/

variable [DecidableEq S]

/-- Links the `Waiter` of `x` at the end of the list of `s`. -/
def linkSem (σ : State S C) (x : Ctx) (s : S) : State S C :=
  let q := (σ.sem s).waiters
  { σ with
    sem := update σ.sem s { σ.sem s with waiters := q.push x }
    semWaiter := { up := update σ.semWaiter.up x false
                   next := q.pushNext σ.semWaiter.next x }
    ghost := σ.ghost.arrive x s }

/-- `--_count`: the permit goes to `x`. -/
def takePermit (σ : State S C) (x : Ctx) (s : S) : State S C :=
  { σ with
    sem := update σ.sem s { σ.sem s with count := (σ.sem s).count - 1 }
    ghost := (σ.ghost.arrive x s).grant x s }

/-- A `down` returns. -/
def finishDown (σ : State S C) (x : Ctx) (s : S) (relock : Bool) : State S C :=
  { σ with pc := update σ.pc x .run, ghost := σ.ghost.return x s relock }

theorem finishDown_eq (σ : State S C) (x : Ctx) (s : S) (relock : Bool) :
    finishDown σ x s relock = { σ with ghost := σ.ghost.return x s relock }.setPc x .run := rfl

/-- `Semaphore::down` up to the first `putMeToSleep`. -/
def down (σ : State S C) (x : Ctx) (s : S) (relock : Bool) : Option (State S C) :=
  if 0 < (σ.sem s).count then some (finishDown (takePermit σ x s) x s relock)
  else do
    -- `getActiveTask` asserts that there is one
    let t ← σ.active
    assert ((σ.sem s).waiters.last = none → (σ.sem s).waiters.first = none)
    some ((prepareMeForSleep (linkSem σ x s) t).setPc x (.downSleep s relock))

/-- `++_count`. -/
def giveBack (σ : State S C) (x : Ctx) (s : S) : State S C :=
  { σ with
    sem := update σ.sem s { σ.sem s with count := ((σ.sem s).count + 1) % 2 ^ 32 }
    ghost := σ.ghost.release x s }

/-- The permit goes from `x` to the first waiter `w`, whose task is `t`. -/
def handOver (σ : State S C) (x : Ctx) (s : S) (w : Ctx) (t : Tid) : State S C :=
  wakeUpTask { σ with
    sem := update σ.sem s { σ.sem s with waiters := (σ.sem s).waiters.pop σ.semWaiter.next }
    semWaiter := { σ.semWaiter with up := update σ.semWaiter.up w true }
    ghost := (σ.ghost.release x s).grant w s } t

/-- `Semaphore::up`, called by `x`. -/
def up (σ : State S C) (x : Ctx) (s : S) : Option (State S C) :=
  match (σ.sem s).waiters.first with
  | none => do
      assert ((σ.sem s).waiters.last = none)
      some (giveBack σ x s)
  | some w => do
      assert ((σ.sem s).waiters.last ≠ none)
      let t ← w.tid
      some (handOver σ x s w t)

/-! ## `CondVar` -/

variable [DecidableEq C]

/-- Links the `Waiter` of `x` at the end of the list of `c`. -/
def linkCond (σ : State S C) (x : Ctx) (c : C) : State S C :=
  let q := (σ.cond c).waiters
  { σ with
    cond := update σ.cond c
      { waiters := q.push x, waiterCount := ((σ.cond c).waiterCount + 1) % 2 ^ 32 }
    condWaiter := { up := update σ.condWaiter.up x false
                    next := q.pushNext σ.condWaiter.next x } }

/-- One round of the loop of `wait`, up to `putMeToSleep`. -/
def waitRound (σ : State S C) (x : Ctx) (c : C) (m : S) : Option (State S C) := do
  let t ← σ.active
  let σ ← up (prepareMeForSleep { σ with ghost := σ.ghost.waitUp x } t) x m
  some (σ.setPc x (.waitSleep c m))

/-- `CondVar::wait` up to the first `putMeToSleep`. -/
def wait (σ : State S C) (x : Ctx) (c : C) (m : S) : Option (State S C) := do
  -- `getActiveTask` again
  assert (σ.active ≠ none)
  assert ((σ.cond c).waiters.last = none → (σ.cond c).waiters.first = none)
  waitRound (linkCond { σ with ghost := σ.ghost.beginWait x } x c) x c m

/-- The notifier goes on with the waiters `ws`, or is done. -/
def Pc.notifying (ws : List Ctx) : Pc S C := if ws = [] then .run else .notify ws

/-- Takes the first waiter off the list of `c`. -/
def unlinkCond (σ : State S C) (c : C) : State S C :=
  { σ with
    cond := update σ.cond c
      { waiters := (σ.cond c).waiters.pop σ.condWaiter.next
        waiterCount := ((σ.cond c).waiterCount + 2 ^ 32 - 1) % 2 ^ 32 } }

/-- Empties the list of `c`. -/
def clearCond (σ : State S C) (c : C) : State S C :=
  { σ with cond := update σ.cond c { waiters := Ends.empty, waiterCount := 0 } }

/-- `CondVar::notify_one` up to the release of its lock. -/
def notifyOne (σ : State S C) (x : Ctx) (c : C) : Option (State S C) :=
  match (σ.cond c).waiters.first with
  | none => do
      assert ((σ.cond c).waiters.last = none)
      some σ
  | some w => some ((unlinkCond σ c).setPc x (.notifying [w]))

/-- `CondVar::notify_all` up to the release of its lock. The list has at most one waiter
for every context there is. -/
def notifyAll (σ : State S C) (x : Ctx) (c : C) : Option (State S C) := do
  let ws ← follow σ.condWaiter.next (2 * σ.tasks.length) (σ.cond c).waiters.first
  some ((clearCond σ c).setPc x (.notifying ws))

/-! ## Steps -/

inductive Action (S C : Type) where
  /-- The executing context makes a call. -/
  | call (op : Call S C)
  /-- The executing context goes on inside a call, or a handler returns. If it gives up
  the processor, `next` runs. -/
  | advance (next : Option Tid)
  /-- The timer interrupt: `next` runs. -/
  | timer (next : Option Tid)
  /-- The keyboard interrupt, with the calls its handler is going to make. -/
  | irq (calls : List (Call S C))

/-- A handler makes its calls in order; a task is free. -/
def takeCall (σ : State S C) (x : Ctx) (op : Call S C) : Option (State S C) :=
  match σ.handler x with
  | none => some σ
  | some [] => none
  | some (o :: rest) => do
      assert (o = op)
      some { σ with handler := update σ.handler x (some rest) }

/-- The section a call begins with. -/
def call (σ : State S C) (x : Ctx) : Call S C → Option (State S C)
  | .down s => down σ x s false
  | .up s => up σ x s
  | .wait c m => wait σ x c m
  | .notifyOne c => notifyOne σ x c
  | .notifyAll c => notifyAll σ x c

/-- `putMeToSleep`, called by `x`: if the task was woken up in the meantime it goes on at
`woken`, and otherwise it is saved to go on at `saved`. -/
def putMeToSleep (σ : State S C) (x : Ctx) (saved woken : Pc S C) (next : Option Tid) :
    Option (State S C) := do
  let t ← σ.active
  if σ.taskState t = .Sleeping then scheduleNext (σ.setPc x saved) next
  else some (σ.setPc x woken)

/-- `waiter->up = true` in a notifier. -/
def setUp (σ : State S C) (w : Ctx) : State S C :=
  { σ with condWaiter := { σ.condWaiter with up := update σ.condWaiter.up w true } }

/-- The next section inside a call. -/
def advance (σ : State S C) (x : Ctx) (next : Option Tid) : Option (State S C) :=
  match σ.pc x with
  | .run =>
    -- only a handler that has made all its calls returns
    match σ.handler x with
    | some [] =>
      let σ := { σ with handler := update σ.handler x none }
      if σ.active = none then scheduleNext σ next else some σ
    | _ => none
  | .downSleep s r => putMeToSleep σ x (.downSaved s r) (.downWoken s r) next
  | .downSaved s r => some (σ.setPc x (.downWoken s r))
  | .downWoken s r =>
    if σ.semWaiter.up x then some (finishDown σ x s r)
    else do
      let t ← σ.active
      some ((prepareMeForSleep σ t).setPc x (.downSleep s r))
  | .waitSleep c m => putMeToSleep σ x (.waitSaved c m) (.waitWoken c m) next
  | .waitSaved c m => some (σ.setPc x (.waitWoken c m))
  | .waitWoken c m =>
    if σ.condWaiter.up x then some (σ.setPc x (.waitLock m)) else waitRound σ x c m
  | .waitLock m => down { σ with ghost := σ.ghost.waitDown x } x m true
  | .notify [] => some (σ.setPc x .run)
  | .notify (w :: ws) => some ((setUp σ w).setPc x (.notifyWake w ws))
  | .notifyWake w ws => do
      let t ← w.tid
      some ((wakeUpTask σ t).setPc x (.notifying ws))

/-- The context an interrupt handler runs in. -/
def State.handlerCtx (σ : State S C) : Ctx :=
  match σ.active with
  | some t => .irq t
  | none => .idleIrq

/-- One step of the machine. -/
def step (σ : State S C) : Action S C → Option (State S C)
  | .call op => do
      let x ← σ.cur
      assert (σ.pc x = .run)
      let σ ← takeCall σ x op
      call σ x op
  | .advance next => do
      let x ← σ.cur
      advance σ x next
  | .timer next => do
      assert (σ.interruptible = true)
      scheduleNext σ next
  | .irq calls => do
      assert (σ.interruptible = true)
      -- the handler starts where the last one in this context returned from, at `run`
      some { σ with handler := update σ.handler σ.handlerCtx (some calls) }

/-- Semaphore `s` initialised to `n s`, and every task of `tasks` in its own code. The
waiter counts of the condition variables start out as whatever `garbage` is. -/
def init (n : S → Nat) (garbage : C → Nat) (tasks : List Tid) : State S C where
  sem s := { count := n s, waiters := Ends.empty }
  cond c := { waiters := Ends.empty, waiterCount := garbage c }
  semWaiter := { up := fun _ => false, next := fun _ => none }
  condWaiter := { up := fun _ => false, next := fun _ => none }
  tasks := tasks
  taskState _ := .Runnable
  active := none
  handler _ := none
  pc _ := .run
  ghost :=
    { ups := fun _ => 0, returned := fun _ => 0, arrivals := fun _ => [], grants := fun _ => []
      held := fun _ => [], waitUps := fun _ => 0, waitDowns := fun _ => 0, waits := [] }

end Flix.Sync

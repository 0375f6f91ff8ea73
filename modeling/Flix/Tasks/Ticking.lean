import Flix.Tasks.HierarchyRuns
import Flix.Tasks.Scheduler

/-!
# When the timer ticks

With one task to run there is nothing to switch to, and the timer is masked in the
interrupt controller. `doInterruptMasking` counts the runnable tasks and sets the mask,
and it has to be called wherever a task becomes runnable or ceases to be.

Two operations do not call it. `addTask` leaves it out for a task that is not runnable,
which changes no count. `wait` leaves it out when it removes the child, which changes no
count either as long as the child is a zombie then. That it is, is not looked at: `wait`
has seen it before, or it has been notified, and what is between is that nobody wakes up
a zombie. For a task is woken up as long as it waits on a semaphore or a condition
variable, and it does not exit there.

The operations are the steps, each of which runs to its end. A task that has called
`prepareMeForSleep` is `queued` until it returns from the `down` or `wait` that called
it, and in between it can be woken up any number of times.
-/

namespace Flix.Tasks.Ticking

open Function Runs
open Scheduler (TaskState)

/-! ## The interrupt controller -/

/-- The mask registers of the two controllers. -/
structure Pic where
  data1 : BitVec 8
  data2 : BitVec 8
  deriving DecidableEq

namespace Pic

/-- `Interrupt::initPic` resets the masks. -/
def initPic : Pic := ⟨0, 0⟩

/-- `updateMask`. -/
def updateMask (pic : Pic) (nb : Nat) (op : BitVec 8 → BitVec 8 → BitVec 8) : Pic :=
  if nb < 8 then { pic with data1 := op pic.data1 (1 <<< nb) }
  else { pic with data2 := op pic.data2 (1 <<< (nb - 8)) }

/-- `Interrupt::mask`. -/
def mask (pic : Pic) (nb : Nat) : Pic := pic.updateMask nb (· ||| ·)

/-- `Interrupt::unmask`. -/
def unmask (pic : Pic) (nb : Nat) : Pic := pic.updateMask nb fun x y => x &&& ~~~y

/-- The bit of a line. -/
def masked (pic : Pic) (nb : Nat) : Bool :=
  if nb < 8 then pic.data1.getLsbD nb else pic.data2.getLsbD (nb - 8)

end Pic

/-- The line of the timer. -/
def IRQ_TIMER : Nat := 0

/-! ## The task manager -/

/-- Where a task is in `TaskManager::wait`. -/
inductive Waiting where
  /-- Not in it. -/
  | no
  /-- On the `stateCond` of the child, and not notified yet. -/
  | cond (child : Tid)
  /-- It has seen that the child is a zombie, or has been notified. -/
  | ended (child : Tid)
  deriving DecidableEq

/-- It does not wait to be notified. -/
def Waiting.awake : Waiting → Bool
  | .cond _ => false
  | _ => true

structure TaskManager where
  tasks : List Tid
  state : Tid → TaskState
  /-- `hh.parent`. -/
  parent : Tid → Option Tid
  /-- The waiters of `stateCond`. -/
  stateCond : Tid → List Tid
  activeTask : Tid
  nextTid : Nat
  pic : Pic
  /-- The task is in a `down` or a `wait`, with its `Waiter` in a list. -/
  queued : Tid → Bool
  waiting : Tid → Waiting

/-- The loop of `doInterruptMasking`. -/
def maskingLoop (state : Tid → TaskState) : List Tid → Bool → Pic → Pic
  | [], _, pic => pic.mask IRQ_TIMER
  | t :: tasks, foundFirst, pic =>
    if state t = .Runnable then
      if foundFirst then pic.unmask IRQ_TIMER else maskingLoop state tasks true pic
    else maskingLoop state tasks foundFirst pic

namespace TaskManager

def doInterruptMasking (s : TaskManager) : TaskManager :=
  { s with pic := maskingLoop s.state s.tasks false s.pic }

/-- A manager, made after `initPic`. For the moment there are 0 tasks, so it does not tick. -/
def start : TaskManager where
  tasks := []
  state _ := .Runnable
  parent _ := none
  stateCond _ := []
  activeTask := 0
  nextTid := 1
  pic := Pic.initPic.mask IRQ_TIMER
  queued _ := false
  waiting _ := .no

/-- `getActiveTask`, which asserts that there is one. -/
def getActiveTask (s : TaskManager) : Option Tid := do
  assert (s.activeTask ≠ 0 ∧ s.activeTask ∈ s.tasks)
  some s.activeTask

/-- The parent of a new task, which task 1 has not. -/
def newParent (s : TaskManager) (tid : Tid) : Option (Option Tid) :=
  if tid > 1 then s.getActiveTask.map some else some none

/-- The table with a new task. -/
def insert (s : TaskManager) (tid : Tid) (state : TaskState) (parent : Option Tid) : TaskManager :=
  { s with
    tasks := tid :: s.tasks
    state := update s.state tid state
    parent := update s.parent tid parent
    stateCond := update s.stateCond tid []
    nextTid := (tid + 1) % 2 ^ 32
    queued := update s.queued tid false
    waiting := update s.waiting tid .no }

/-- `addTask`, for a task in a state. -/
def addTask (s : TaskManager) (state : TaskState) : Option TaskManager := do
  let tid ← updateNextTid s.tasks (s.tasks.length + 1) s.nextTid
  let parent ← s.newParent tid
  let s := s.insert tid state parent
  some (if state = .Runnable then s.doInterruptMasking else s)

/-- `clone`, as to the tasks. -/
def clone (s : TaskManager) : Option TaskManager := do
  let _ ← s.getActiveTask
  s.addTask .Runnable

/-- `prepareMeForSleep`, in a `down` or a `wait`. -/
def prepareMeForSleep (s : TaskManager) : Option TaskManager := do
  let t ← s.getActiveTask
  let s := { s with state := update s.state t .Sleeping, queued := update s.queued t true }
  some s.doInterruptMasking

def wakeUpTask (s : TaskManager) (t : Tid) : TaskManager :=
  { s with state := update s.state t .Runnable }.doInterruptMasking

/-- The `notify_one` on the `stateCond` of `t`. -/
def notify (s : TaskManager) (t : Tid) : TaskManager :=
  match s.stateCond t with
  | [] => s
  | p :: rest => { s with
      stateCond := update s.stateCond t rest
      waiting := update s.waiting p (.ended t) }.wakeUpTask p

/-- `terminateCurrentTask`, up to `scheduleNext`. Bit 9 of `rflags` is `flag`. -/
def terminateCurrentTask (s : TaskManager) (flag : Bool) : Option TaskManager := do
  assert (flag = false)
  let t ← s.getActiveTask
  -- "PID 1 is dead"
  assert (t ≠ 1)
  let s := { s with activeTask := 0, state := update s.state t .Zombie }
  some (s.notify t).doInterruptMasking

/-- `wait`, up to the sleep on `stateCond` or to the removal of the child. -/
def wait (s : TaskManager) (child : Tid) : Option TaskManager := do
  let t ← s.getActiveTask
  if child ∈ s.tasks then
    -- a null parent is not checked for
    let parent ← s.parent child
    if parent ≠ t then some s
    else if s.state child = .Zombie then some { s with waiting := update s.waiting t (.ended child) }
    else
      let s := { s with
        stateCond := update s.stateCond child (s.stateCond child ++ [t])
        waiting := update s.waiting t (.cond child) }
      s.prepareMeForSleep
  else some s

/-- The end of `wait`. -/
def removeChild (s : TaskManager) : Option TaskManager := do
  let t ← s.getActiveTask
  match s.waiting t with
  | .ended child =>
    assert (child ∈ s.tasks)
    -- "making orphans is not implemented"
    assert (∀ u ∈ s.tasks, s.parent u ≠ some child)
    some { s with tasks := s.tasks.erase child, waiting := update s.waiting t .no }
  | _ => none

end TaskManager

inductive Action where
  | addTask (state : TaskState)
  | clone
  | prepareMeForSleep
  | wakeUpTask (t : Tid)
  | terminateCurrentTask (flag : Bool)
  | wait (child : Tid)
  | removeChild
  /-- The active task leaves the `down` or `wait` it has slept in. -/
  | awake
  /-- The scheduler runs another task, or none. -/
  | schedule (next : Tid)

def step (s : TaskManager) : Action → Option TaskManager
  | .addTask state => s.addTask state
  | .clone => s.clone
  | .prepareMeForSleep => s.prepareMeForSleep
  | .wakeUpTask t => some (s.wakeUpTask t)
  | .terminateCurrentTask flag => s.terminateCurrentTask flag
  | .wait child => s.wait child
  | .removeChild => s.removeChild
  | .awake => do
      let t ← s.getActiveTask
      some { s with queued := update s.queued t false }
  | .schedule next => do
      assert (next = 0 ∨ next ∈ s.tasks ∧ s.state next = .Runnable)
      some { s with activeTask := next }

/-- The active task is not inside a `down` or a `wait`. -/
def TaskManager.Outside (s : TaskManager) : Prop :=
  s.queued s.activeTask = false ∧ s.waiting s.activeTask = .no

/-- Where the operations are called, which no assertion looks at: who is woken up is in a list, who
exits or begins to wait is in none, and who has slept goes on after the sleep. -/
def Guard (s : TaskManager) : Action → Prop
  | .wakeUpTask t => s.queued t = true
  | .terminateCurrentTask _ => s.Outside
  | .wait _ => s.Outside
  | .removeChild => s.queued s.activeTask = false
  | .awake => (s.waiting s.activeTask).awake
  | _ => True

instance (s : TaskManager) : Decidable s.Outside := inferInstanceAs (Decidable (_ ∧ _))

instance (s : TaskManager) : (a : Action) → Decidable (Guard s a)
  | .wakeUpTask _ | .removeChild | .awake => inferInstanceAs (Decidable (_ = _))
  | .terminateCurrentTask _ | .wait _ => inferInstanceAs (Decidable s.Outside)
  | .addTask _ | .clone | .prepareMeForSleep | .schedule _ => inferInstanceAs (Decidable True)

/-! ## The mask -/

/-- How many tasks are runnable. -/
def TaskManager.runnable (s : TaskManager) : Nat := s.tasks.countP fun t => s.state t = .Runnable

/-- The lines other than that of the timer are as `initPic` has left them. -/
def Pic.Others (pic : Pic) : Prop :=
  ∀ nb < 16, nb ≠ IRQ_TIMER → pic.masked nb = Pic.initPic.masked nb

/-- The timer ticks when it is needed. -/
structure Ticks (s : TaskManager) : Prop where
  timer : s.pic.masked IRQ_TIMER = false ↔ 2 ≤ s.runnable
  others : s.pic.Others

namespace Pic

variable {pic : Pic}

theorem masked_mask (nb : Nat) :
    (pic.mask IRQ_TIMER).masked nb = (decide (nb = IRQ_TIMER) || pic.masked nb) := by
  have hreg : pic.mask IRQ_TIMER = { pic with data1 := pic.data1 ||| 1#8 } := rfl
  rw [hreg]
  unfold masked IRQ_TIMER
  by_cases hnb : nb < 8
  · simp [hnb, Bool.or_comm]
  · have hne : nb ≠ 0 := by omega
    simp [hne]

theorem masked_unmask (nb : Nat) :
    (pic.unmask IRQ_TIMER).masked nb = (decide (nb ≠ IRQ_TIMER) && pic.masked nb) := by
  have hreg : pic.unmask IRQ_TIMER = { pic with data1 := pic.data1 &&& 254#8 } := rfl
  have hbits : ∀ i < 8, (254#8).getLsbD i = decide (i ≠ 0) := by decide
  rw [hreg]
  unfold masked IRQ_TIMER
  by_cases hnb : nb < 8
  · simp only [hnb, if_true, BitVec.getLsbD_and, hbits nb hnb, Bool.and_comm]
  · have hne : nb ≠ 0 := by omega
    simp [hnb, hne]

theorem Others.mask (h : pic.Others) : (pic.mask IRQ_TIMER).Others := by
  intro nb hlt hne
  rw [masked_mask, decide_eq_false hne]
  exact h nb hlt hne

theorem Others.unmask (h : pic.Others) : (pic.unmask IRQ_TIMER).Others := by
  intro nb hlt hne
  rw [masked_unmask, decide_eq_true hne]
  exact h nb hlt hne

end Pic

/-- Whether there are two, with those that have been found already. -/
theorem maskingLoop_eq {state : Tid → TaskState} : ∀ {tasks : List Tid} {foundFirst : Bool} {pic : Pic},
    maskingLoop state tasks foundFirst pic
      = if 2 ≤ (tasks.countP fun t => state t = .Runnable) + foundFirst.toNat
        then pic.unmask IRQ_TIMER else pic.mask IRQ_TIMER
  | [], foundFirst, pic => by
    have hle := foundFirst.toNat_le
    rw [maskingLoop, List.countP_nil, if_neg (by omega)]
  | t :: tasks, foundFirst, pic => by
    rw [maskingLoop]
    by_cases ht : state t = .Runnable
    · rw [if_pos ht, List.countP_cons_of_pos (by simpa using ht)]
      cases foundFirst with
      | true =>
        rw [if_pos rfl, if_pos]
        simp only [Bool.toNat_true]
        omega
      | false =>
        rw [if_neg (by decide), maskingLoop_eq]
        simp only [Bool.toNat_true, Bool.toNat_false]
    · rw [if_neg ht, List.countP_cons_of_neg (by simpa using ht), maskingLoop_eq]

/-- `doInterruptMasking` is right, whatever the mask was before. -/
theorem ticks_doInterruptMasking {s : TaskManager} (h : s.pic.Others) :
    Ticks s.doInterruptMasking := by
  have hpic : s.doInterruptMasking.pic
      = if 2 ≤ s.runnable then s.pic.unmask IRQ_TIMER else s.pic.mask IRQ_TIMER := maskingLoop_eq
  by_cases h2 : 2 ≤ s.runnable
  · rw [if_pos h2] at hpic
    refine ⟨?_, by rw [hpic]; exact h.unmask⟩
    rw [hpic, Pic.masked_unmask]
    exact iff_of_true rfl h2
  · rw [if_neg h2] at hpic
    refine ⟨?_, by rw [hpic]; exact h.mask⟩
    rw [hpic, Pic.masked_mask]
    exact iff_of_false (by simp) h2

theorem Ticks.of_runnable {s s' : TaskManager} (h : Ticks s) (hpic : s'.pic = s.pic)
    (hrun : s'.runnable = s.runnable) : Ticks s' := by
  refine ⟨?_, by rw [hpic]; exact h.others⟩
  rw [hpic, hrun]
  exact h.timer

/-! ## Nobody wakes up a zombie -/

/-- What holds of the tasks between the operations. -/
structure Sound (s : TaskManager) : Prop where
  nodup : s.tasks.Nodup
  active : s.activeTask = 0 ∨ s.activeTask ∈ s.tasks ∧ s.state s.activeTask ≠ .Zombie
  /-- Who waits is not a zombie. -/
  queued : ∀ t, s.queued t = true → t ∈ s.tasks ∧ s.state t ≠ .Zombie
  /-- A child that is to be removed is one. -/
  ended : ∀ t c, s.waiting t = .ended c → c ∈ s.tasks ∧ s.state c = .Zombie ∧ s.parent c = some t
  /-- On the `stateCond` of a task there is its parent. -/
  cond : ∀ c ∈ s.tasks, (s.stateCond c).Nodup ∧ ∀ p ∈ s.stateCond c, p ∈ s.tasks ∧
    s.state p ≠ .Zombie ∧ s.parent c = some p ∧ s.waiting p = .cond c

section

variable {s s' : TaskManager} {t : Tid}

theorem getActiveTask_eq_some (h : s.getActiveTask = some t) :
    t = s.activeTask ∧ t ≠ 0 ∧ t ∈ s.tasks := by
  obtain ⟨hact, h⟩ := of_assert h
  cases h
  exact ⟨rfl, hact⟩

theorem Sound.active_ne (h : Sound s) (ht : s.getActiveTask = some t) :
    t ∈ s.tasks ∧ s.state t ≠ .Zombie := by
  obtain ⟨rfl, hne, -⟩ := getActiveTask_eq_some ht
  exact h.active.resolve_left hne

theorem Sound.masking (h : Sound s) : Sound s.doInterruptMasking :=
  { h with }

variable {v : TaskState} {child : Tid}

/-- A task that is no zombie goes to sleep or wakes up. -/
theorem Sound.setState (h : Sound s) (hz : s.state t ≠ .Zombie) (hv : v ≠ .Zombie) :
    Sound { s with state := update s.state t v } := by
  have hsame : ∀ u, update s.state t v u = .Zombie ↔ s.state u = .Zombie := by
    intro u
    by_cases hu : u = t
    · rw [hu, update_self]
      exact iff_of_false hv hz
    · rw [update_of_ne hu]
  refine ⟨h.nodup, h.active.imp id fun ha => ⟨ha.1, fun hc => ha.2 ((hsame _).mp hc)⟩,
    fun u hu => ⟨(h.queued u hu).1, fun hc => (h.queued u hu).2 ((hsame u).mp hc)⟩,
    fun u c hu => ?_, fun c hc => ⟨(h.cond c hc).1, fun p hp => ?_⟩⟩
  · obtain ⟨hc, hzc, hp⟩ := h.ended u c hu
    exact ⟨hc, (hsame c).mpr hzc, hp⟩
  · obtain ⟨hpt, hpz, hrest⟩ := (h.cond c hc).2 p hp
    exact ⟨hpt, fun hc => hpz ((hsame p).mp hc), hrest⟩

theorem Sound.wakeUpTask (h : Sound s) (hz : s.state t ≠ .Zombie) : Sound (s.wakeUpTask t) :=
  (h.setState hz (by decide)).masking

theorem Sound.prepareMeForSleep (h : Sound s) (hs : s.prepareMeForSleep = some s') : Sound s' := by
  obtain ⟨t, ht, hs⟩ := of_bind hs
  cases hs
  obtain ⟨htask, hz⟩ := h.active_ne ht
  have h1 : Sound { s with state := update s.state t .Sleeping } := h.setState hz (by decide)
  refine Sound.masking { h1 with queued := fun u hu => ?_ }
  replace hu : update s.queued t true u = true := hu
  by_cases hut : u = t
  · rw [hut]
    exact ⟨htask, by simp⟩
  · rw [update_of_ne hut] at hu
    exact h1.queued u hu

theorem Sound.insert (h : Sound s) {n : Tid} {parent : Option Tid}
    (hn : n ∉ s.tasks) : Sound (s.insert n v parent) := by
  have hne : ∀ {u}, u ∈ s.tasks → u ≠ n := fun hu heq => hn (heq ▸ hu)
  refine ⟨nodup_cons.mpr ⟨hn, h.nodup⟩, h.active.imp id fun ha => ?_, fun u hu => ?_,
    fun u c hu => ?_, fun c hc => ?_⟩
  · refine ⟨mem_cons_of_mem _ ha.1, ?_⟩
    show update s.state n v s.activeTask ≠ .Zombie
    rw [update_of_ne (hne ha.1)]
    exact ha.2
  · replace hu : update s.queued n false u = true := hu
    have hun : u ≠ n := fun heq => by rw [heq, update_self] at hu; cases hu
    rw [update_of_ne hun] at hu
    refine ⟨mem_cons_of_mem _ (h.queued u hu).1, ?_⟩
    show update s.state n v u ≠ .Zombie
    rw [update_of_ne hun]
    exact (h.queued u hu).2
  · replace hu : update s.waiting n .no u = .ended c := hu
    have hun : u ≠ n := fun heq => by rw [heq, update_self] at hu; cases hu
    rw [update_of_ne hun] at hu
    obtain ⟨hc, hz, hp⟩ := h.ended u c hu
    refine ⟨mem_cons_of_mem _ hc, ?_, ?_⟩
    · show update s.state n v c = .Zombie
      rwa [update_of_ne (hne hc)]
    · show update s.parent n parent c = some u
      rwa [update_of_ne (hne hc)]
  · simp only [TaskManager.insert]
    obtain rfl | hc := mem_cons.mp hc
    · rw [update_self]
      exact ⟨List.nodup_nil, fun p hp => absurd hp not_mem_nil⟩
    · rw [update_of_ne (hne hc)]
      refine ⟨(h.cond c hc).1, fun p hp => ?_⟩
      obtain ⟨hpt, hpz, hpar, hw⟩ := (h.cond c hc).2 p hp
      rw [update_of_ne (hne hpt), update_of_ne (hne hc), update_of_ne (hne hpt)]
      exact ⟨mem_cons_of_mem _ hpt, hpz, hpar, hw⟩

theorem addTask_eq_some (hs : s.addTask v = some s') :
    ∃ n parent, n ∉ s.tasks ∧ s' = if v = .Runnable
      then (s.insert n v parent).doInterruptMasking else s.insert n v parent := by
  obtain ⟨n, hn, hs⟩ := of_bind hs
  obtain ⟨parent, -, hs⟩ := of_bind hs
  exact ⟨n, parent, updateNextTid_not_mem hn, (Option.some.inj hs).symm⟩

theorem Sound.exit (h : Sound s) (hq : s.queued t = false) (hw : s.waiting t = .no) :
    Sound { s with activeTask := 0, state := update s.state t .Zombie } := by
  refine ⟨h.nodup, .inl rfl, fun u hu => ?_, fun u c hu => ?_,
    fun c hc => ⟨(h.cond c hc).1, fun p hp => ?_⟩⟩
  · have hut : u ≠ t := fun heq => by
      rw [heq] at hu
      exact Bool.false_ne_true (hq.symm.trans hu)
    simp only [update_of_ne hut]
    exact h.queued u hu
  · obtain ⟨hc, hz, hp⟩ := h.ended u c hu
    refine ⟨hc, ?_, hp⟩
    show update s.state t .Zombie c = .Zombie
    by_cases hct : c = t
    · rw [hct, update_self]
    · rwa [update_of_ne hct]
  · obtain ⟨hpt, hpz, hpar, hpw⟩ := (h.cond c hc).2 p hp
    have hpt' : p ≠ t := fun heq => by rw [heq, hw] at hpw; cases hpw
    simp only [update_of_ne hpt']
    exact ⟨hpt, hpz, hpar, hpw⟩

theorem Sound.notify (h : Sound s) (ht : t ∈ s.tasks) (hz : s.state t = .Zombie) :
    Sound (s.notify t) := by
  unfold TaskManager.notify
  split
  · exact h
  · rename_i p rest hlist
    obtain ⟨hnd, hcond⟩ := h.cond t ht
    rw [hlist] at hnd hcond
    obtain ⟨hpt, hpz, hpar, hpw⟩ := hcond p mem_cons_self
    refine Sound.wakeUpTask { h with ended := fun u c hu => ?_, cond := fun c hc => ?_ } hpz
    · replace hu : update s.waiting p (.ended t) u = .ended c := hu
      by_cases hup : u = p
      · rw [hup, update_self] at hu
        cases hu
        exact ⟨ht, hz, hup ▸ hpar⟩
      · rw [update_of_ne hup] at hu
        exact h.ended u c hu
    · simp only
      by_cases hct : c = t
      · rw [hct, update_self]
        refine ⟨(nodup_cons.mp hnd).2, fun q hq => ?_⟩
        have hqp : q ≠ p := fun heq => (nodup_cons.mp hnd).1 (heq ▸ hq)
        rw [update_of_ne hqp]
        exact hcond q (mem_cons_of_mem _ hq)
      · rw [update_of_ne hct]
        refine ⟨(h.cond c hc).1, fun q hq => ?_⟩
        obtain ⟨hqt, hqz, hqpar, hqw⟩ := (h.cond c hc).2 q hq
        -- a task waits on one child at a time
        have hqp : q ≠ p := fun heq => by
          rw [heq, hpw] at hqw
          exact hct (Waiting.cond.inj hqw).symm
        rw [update_of_ne hqp]
        exact ⟨hqt, hqz, hqpar, hqw⟩

theorem Sound.terminateCurrentTask {flag : Bool} (h : Sound s) (hout : s.Outside)
    (hs : s.terminateCurrentTask flag = some s') : Sound s' := by
  obtain ⟨-, hs⟩ := of_assert hs
  obtain ⟨t, ht, hs⟩ := of_bind hs
  obtain ⟨-, hs⟩ := of_assert hs
  cases hs
  have hexit : Sound { s with activeTask := 0, state := update s.state t .Zombie } := by
    rw [(getActiveTask_eq_some ht).1]
    exact h.exit hout.1 hout.2
  exact (hexit.notify (h.active_ne ht).1 (update_self ..)).masking

theorem Sound.enlist (h : Sound s) (ht : t ∈ s.tasks ∧ s.state t ≠ .Zombie)
    (hw : s.waiting t = .no) (hc : child ∈ s.tasks) (hpar : s.parent child = some t) :
    Sound { s with
      stateCond := update s.stateCond child (s.stateCond child ++ [t])
      waiting := update s.waiting t (.cond child) } := by
  have hnot : ∀ c ∈ s.tasks, t ∉ s.stateCond c := fun c hc hm => by
    have hcw := ((h.cond c hc).2 t hm).2.2.2
    rw [hw] at hcw
    cases hcw
  refine { h with ended := fun u c hu => ?_, cond := fun c hc => ?_ }
  · replace hu : update s.waiting t (.cond child) u = .ended c := hu
    have hut : u ≠ t := fun heq => by rw [heq, update_self] at hu; cases hu
    rw [update_of_ne hut] at hu
    exact h.ended u c hu
  · have hold : ∀ p ∈ s.stateCond c, p ∈ s.tasks ∧ s.state p ≠ .Zombie ∧ s.parent c = some p ∧
        update s.waiting t (.cond child) p = .cond c := by
      intro p hp
      have hne : p ≠ t := fun heq => hnot c hc (heq ▸ hp)
      rw [update_of_ne hne]
      exact (h.cond c hc).2 p hp
    simp only
    by_cases hcc : c = child
    · subst hcc
      rw [update_self]
      refine ⟨List.nodup_append.mpr ⟨(h.cond c hc).1, List.nodup_singleton t, ?_⟩, fun p hp => ?_⟩
      · intro a ha b hb heq
        rw [heq, mem_singleton.mp hb] at ha
        exact hnot c hc ha
      · rcases mem_append.mp hp with hp | hp
        · exact hold p hp
        · rw [mem_singleton.mp hp]
          exact ⟨ht.1, ht.2, hpar, update_self ..⟩
    · rw [update_of_ne hcc]
      exact ⟨(h.cond c hc).1, hold⟩

/-- Who begins to wait for a child that it sees alive gets on its list, and who sees a zombie can
remove it. -/
theorem Sound.wait (h : Sound s) (hout : s.Outside) (hs : s.wait child = some s') : Sound s' := by
  obtain ⟨t, ht, hs⟩ := of_bind hs
  have hw : s.waiting t = .no := (getActiveTask_eq_some ht).1 ▸ hout.2
  split at hs
  · rename_i hchild
    obtain ⟨parent, hpar, hs⟩ := of_bind hs
    split at hs
    · cases hs
      exact h
    split at hs
    · rename_i hp hz
      cases hs
      obtain rfl : parent = t := Decidable.of_not_not hp
      refine ⟨h.nodup, h.active, h.queued, fun u c hu => ?_,
        fun c hc => ⟨(h.cond c hc).1, fun p hp => ?_⟩⟩
      · replace hu : update s.waiting parent (.ended child) u = .ended c := hu
        by_cases hut : u = parent
        · rw [hut, update_self] at hu
          cases hu
          exact ⟨hchild, hz, hut ▸ hpar⟩
        · rw [update_of_ne hut] at hu
          exact h.ended u c hu
      · obtain ⟨hpt, hpz, hppar, hpw⟩ := (h.cond c hc).2 p hp
        have hne : p ≠ parent := fun heq => by rw [heq, hw] at hpw; cases hpw
        simp only [update_of_ne hne]
        exact ⟨hpt, hpz, hppar, hpw⟩
    · rename_i hp hz
      obtain rfl : parent = t := Decidable.of_not_not hp
      exact (h.enlist (h.active_ne ht) hw hchild hpar).prepareMeForSleep hs
  · cases hs
    exact h

/-- The count is that of before, and so is all the rest. -/
theorem removeChild_eq_some (h : Sound s) (hs : s.removeChild = some s') :
    Sound s' ∧ s'.pic = s.pic ∧ s'.runnable = s.runnable := by
  obtain ⟨t, ht, hs⟩ := of_bind hs
  split at hs
  · rename_i child hw
    obtain ⟨-, hs⟩ := of_assert hs
    obtain ⟨-, hs⟩ := of_assert hs
    cases hs
    obtain ⟨hc, hz, hpar⟩ := h.ended t child hw
    have hkeep : ∀ {u}, u ∈ s.tasks → s.state u ≠ .Zombie → u ∈ s.tasks.erase child :=
      fun {u} hu huz => (List.mem_erase_of_ne fun heq : u = child => huz (heq ▸ hz)).mpr hu
    refine ⟨⟨h.nodup.erase _, h.active.imp id fun ha => ⟨hkeep ha.1 ha.2, ha.2⟩,
      fun u hu => ⟨hkeep (h.queued u hu).1 (h.queued u hu).2, (h.queued u hu).2⟩,
      fun u c hu => ?_, fun c hc => ?_⟩, rfl, ?_⟩
    · replace hu : update s.waiting t .no u = .ended c := hu
      have hut : u ≠ t := fun heq => by rw [heq, update_self] at hu; cases hu
      rw [update_of_ne hut] at hu
      obtain ⟨hc', hz', hpar'⟩ := h.ended u c hu
      -- nobody else waits for this child, as it has one parent
      have hne : c ≠ child := fun heq => by
        rw [heq, hpar] at hpar'
        exact hut (Option.some.inj hpar').symm
      exact ⟨(List.mem_erase_of_ne hne).mpr hc', hz', hpar'⟩
    · obtain ⟨hnd, hcond⟩ := h.cond c (List.mem_of_mem_erase hc)
      refine ⟨hnd, fun p hp => ?_⟩
      obtain ⟨hpt, hpz, hppar, hpw⟩ := hcond p hp
      have hne : p ≠ t := fun heq => by rw [heq, hw] at hpw; cases hpw
      refine ⟨hkeep hpt hpz, hpz, hppar, ?_⟩
      show update s.waiting t .no p = .cond c
      rwa [update_of_ne hne]
    · have hperm := (List.perm_cons_erase hc).countP_eq fun t => s.state t = .Runnable
      rw [List.countP_cons_of_neg (by simp [hz])] at hperm
      exact hperm.symm
  · cases hs

/-! ## Every operation -/

/-- A new task that is not runnable does not count. -/
theorem runnable_insert {n : Tid} {parent : Option Tid} (hn : n ∉ s.tasks)
    (hv : v ≠ .Runnable) : (s.insert n v parent).runnable = s.runnable := by
  show (n :: s.tasks).countP (fun t => update s.state n v t = .Runnable) = _
  rw [List.countP_cons_of_neg (by simpa using hv)]
  refine List.countP_congr fun t ht => ?_
  have hne : t ≠ n := fun heq => hn (heq ▸ ht)
  rw [update_of_ne hne]

theorem addTask_keeps (h : Sound s) (hk : Ticks s) (hs : s.addTask v = some s') :
    Sound s' ∧ Ticks s' := by
  obtain ⟨n, parent, hn, rfl⟩ := addTask_eq_some hs
  split
  · exact ⟨(h.insert hn).masking, ticks_doInterruptMasking hk.others⟩
  · exact ⟨h.insert hn, hk.of_runnable rfl (runnable_insert hn ‹_›)⟩

theorem prepareMeForSleep_ticks (hk : s.pic.Others) (hs : s.prepareMeForSleep = some s') :
    Ticks s' := by
  obtain ⟨t, -, hs⟩ := of_bind hs
  cases hs
  exact ticks_doInterruptMasking hk

theorem notify_others (hk : s.pic.Others) : (s.notify t).pic.Others := by
  unfold TaskManager.notify
  split
  · exact hk
  · refine (ticks_doInterruptMasking ?_).others
    exact hk

theorem terminateCurrentTask_ticks {flag : Bool} (hk : Ticks s)
    (hs : s.terminateCurrentTask flag = some s') : Ticks s' := by
  obtain ⟨-, hs⟩ := of_assert hs
  obtain ⟨t, -, hs⟩ := of_bind hs
  obtain ⟨-, hs⟩ := of_assert hs
  cases hs
  refine ticks_doInterruptMasking (notify_others ?_)
  exact hk.others

theorem wait_ticks (hk : Ticks s) (hs : s.wait child = some s') : Ticks s' := by
  obtain ⟨t, -, hs⟩ := of_bind hs
  split at hs
  · obtain ⟨parent, -, hs⟩ := of_bind hs
    split at hs
    · cases hs
      exact hk
    split at hs
    · cases hs
      exact hk.of_runnable rfl rfl
    · refine prepareMeForSleep_ticks ?_ hs
      exact hk.others
  · cases hs
    exact hk

theorem step_keeps {a : Action} (h : Sound s) (hk : Ticks s) (hg : Guard s a)
    (hs : step s a = some s') : Sound s' ∧ Ticks s' := by
  cases a with
  | addTask v => exact addTask_keeps h hk hs
  | clone =>
    obtain ⟨t, -, hs⟩ := of_bind hs
    exact addTask_keeps h hk hs
  | prepareMeForSleep => exact ⟨h.prepareMeForSleep hs, prepareMeForSleep_ticks hk.others hs⟩
  | wakeUpTask t =>
    cases hs
    exact ⟨h.wakeUpTask (h.queued t hg).2, ticks_doInterruptMasking hk.others⟩
  | terminateCurrentTask flag =>
    exact ⟨h.terminateCurrentTask hg hs, terminateCurrentTask_ticks hk hs⟩
  | wait child => exact ⟨h.wait hg hs, wait_ticks hk hs⟩
  | removeChild =>
    obtain ⟨hsound, hpic, hrun⟩ := removeChild_eq_some h hs
    exact ⟨hsound, hk.of_runnable hpic hrun⟩
  | awake =>
    obtain ⟨t, ht, hs⟩ := of_bind hs
    cases hs
    refine ⟨{ h with queued := fun u hu => h.queued u ?_ }, hk.of_runnable rfl rfl⟩
    replace hu : update s.queued t false u = true := hu
    have hut : u ≠ t := fun heq => by rw [heq, update_self] at hu; cases hu
    rwa [update_of_ne hut] at hu
  | schedule next =>
    obtain ⟨hnext, hs⟩ := of_assert hs
    cases hs
    refine ⟨{ h with active := hnext.imp id fun hn => ⟨hn.1, ?_⟩ },
      hk.of_runnable rfl rfl⟩
    rw [hn.2]
    decide

end

theorem start_keeps : Sound TaskManager.start ∧ Ticks TaskManager.start := by
  refine ⟨⟨List.nodup_nil, .inl rfl, nofun, nofun, nofun⟩, ?_, ?_⟩
  · exact iff_of_false (by decide) (by decide)
  · exact Pic.Others.mask fun _ _ _ => rfl

/-- **The timer ticks exactly when it is needed**, after any operations in any order, and the other
lines are as they were. -/
theorem ticks_of_reach {s : TaskManager} (hs : Reach step Guard TaskManager.start s) : Ticks s := by
  refine (hs.invariant (I := fun s => Sound s ∧ Ticks s) start_keeps
    fun s a s' h hg hstep => ?_).2
  exact step_keeps h.1 h.2 hg hstep

/-- Task 1 and its child run, and the child exits. -/
theorem ticks_of_reach_exit : ∃ s s',
    guardedRun step Guard TaskManager.start [.addTask .Runnable, .schedule 1, .clone] = some s ∧
      Ticks s ∧ s.pic.masked IRQ_TIMER = false ∧
    guardedRun step Guard TaskManager.start [.addTask .Runnable, .schedule 1, .clone, .schedule 2,
      .terminateCurrentTask false, .schedule 1, .wait 2, .removeChild] = some s' ∧ Ticks s' ∧
      s'.pic.masked IRQ_TIMER = true := by
  have hrun : (guardedRun step Guard TaskManager.start
      [.addTask .Runnable, .schedule 1, .clone]).map (·.pic.masked IRQ_TIMER) = some false := by decide
  have hrun' : (guardedRun step Guard TaskManager.start [.addTask .Runnable, .schedule 1, .clone,
      .schedule 2, .terminateCurrentTask false, .schedule 1, .wait 2, .removeChild]).map
        (·.pic.masked IRQ_TIMER) = some true := by decide
  obtain ⟨s, hs, hp⟩ := map_eq_some_iff.mp hrun
  obtain ⟨s', hs', hp'⟩ := map_eq_some_iff.mp hrun'
  exact ⟨s, s', hs, ticks_of_reach (Reach.of_guardedRun hs), hp, hs',
    ticks_of_reach (Reach.of_guardedRun hs'), hp'⟩

end Flix.Tasks.Ticking

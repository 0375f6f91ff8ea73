import Flix.Lib.Runs
import Flix.Lib.Siblings

/-!
# The hierarchy of tasks

`HierarchyHolder` and what `TaskManager` does with it. Every task has a pointer to its
parent, to its first child and to its siblings, and a mutex for these. `addTask` puts a
new task in front of the children of the active one. `wait` removes a child that has
exited. Both take several mutexes, one after the other, and each of these is a step
here, so that others come in between everywhere. (The source disables interrupts for
most of it, which leaves fewer interleavings.)

A pointer to a task is its number. A task that is removed leaves `_tasks` at the end of
its removal here; in the source it leaves first, and is looked up by nobody in between.
-/

namespace Flix.Tasks

open Function Siblings

abbrev Tid := Nat

/-- `Task::HierarchyHolder`, without its mutex. -/
structure HierarchyHolder where
  parent : Option Tid
  firstChild : Option Tid
  nextSibling : Option Tid
  prevSibling : Option Tid
  deriving DecidableEq

structure Tree where
  /-- `_tasks`. -/
  tasks : List Tid
  hh : Tid → HierarchyHolder
  /-- The tasks in state `Zombie`. -/
  zombie : Tid → Bool

def Tree.parent (T : Tree) (t : Tid) : Option Tid := (T.hh t).parent
def Tree.first (T : Tree) (t : Tid) : Option Tid := (T.hh t).firstChild
def Tree.next (T : Tree) (t : Tid) : Option Tid := (T.hh t).nextSibling
def Tree.prev (T : Tree) (t : Tid) : Option Tid := (T.hh t).prevSibling

/-! ## Where a task is -/

/-- In `addChild`: about to lock the child, the parent and the first child, about to link the
child, or giving back the mutexes. -/
inductive AddPlace where
  | child
  | parent
  | first
  | link
  | unlock
  deriving DecidableEq

/-- In `wait(-1)`: about to lock the own mutex, to look for the first child, or to unlock. -/
inductive FirstPlace where
  | lock
  | read
  | unlock (tid : Option Tid)
  deriving DecidableEq

/-- In `~HierarchyHolder`: about to lock the parent, the siblings and the task itself, then its
children from `cur` on, about to unlink it, or giving back the mutexes. -/
inductive RemovePlace where
  | parent
  | prev
  | self
  | next
  | child (cur : Option Tid)
  | unlink
  | unlock
  deriving DecidableEq

inductive Pc where
  /-- In none of these functions. -/
  | run
  | addChild (child : Tid) (place : AddPlace)
  | firstChild (place : FirstPlace)
  /-- In `wait`, until the child has exited. -/
  | awaiting (tid : Tid)
  | remove (tid : Tid) (place : RemovePlace)
  deriving DecidableEq

structure State where
  tree : Tree
  /-- `_nextTid`, of 32 bits. -/
  nextTid : Nat
  /-- Who has the mutex of a task. -/
  holder : Tid → Option Tid
  /-- The vector `locks` of a task: the mutexes it has. -/
  locks : Tid → List Tid
  pc : Tid → Pc

/-! ## Mutexes -/

def State.goto (s : State) (x : Tid) (p : Pc) : State := { s with pc := update s.pc x p }

/-- `x` locks the mutex of `m` and goes on at `p`. There is no step while somebody has it. -/
def lock (s : State) (x m : Tid) (p : Pc) : Option State := do
  assert (s.holder m = none)
  some { s with
    holder := update s.holder m (some x)
    locks := update s.locks x (s.locks x ++ [m])
    pc := update s.pc x p }

/-- The same for a pointer that may be null. -/
def lockIf (s : State) (x : Tid) (m : Option Tid) (p : Pc) : Option State :=
  match m with
  | some m => lock s x m p
  | none => some (s.goto x p)

/-- The destructor of `locks`: one mutex is given back, and when there is none left, `done`. The
order is that of the library, so `i` may be any place in the vector. -/
def unlock (s : State) (x : Tid) (i : Nat) (done : Option State) : Option State :=
  if s.locks x = [] then done
  else do
    let m ← (s.locks x)[i]?
    some { s with
      holder := update s.holder m none
      locks := update s.locks x ((s.locks x).erase m) }

/-! ## Links -/

def setPrev (h : Tid → HierarchyHolder) (t v : Option Tid) : Tid → HierarchyHolder :=
  match t with
  | some t => update h t { h t with prevSibling := v }
  | none => h

def setNext (h : Tid → HierarchyHolder) (t v : Option Tid) : Tid → HierarchyHolder :=
  match t with
  | some t => update h t { h t with nextSibling := v }
  | none => h

/-- What `addChild` does once it has the mutexes. -/
def link (h : Tid → HierarchyHolder) (p child : Tid) : Option (Tid → HierarchyHolder) := do
  let first := (h p).firstChild
  assert (∀ f ∈ first, (h f).prevSibling = none)
  let h := setPrev h first (some child)
  assert ((h child).prevSibling = none)
  let h := update h child { h child with nextSibling := first }
  let h := update h p { h p with firstChild := some child }
  assert ((h child).parent ≠ none)
  some h

/-- What `~HierarchyHolder` does once it has the mutexes. -/
def unlink (h : Tid → HierarchyHolder) (t : Tid) : Option (Tid → HierarchyHolder) := do
  let p ← (h t).parent
  let next := (h t).nextSibling
  let prev := (h t).prevSibling
  let h := if (h p).firstChild = some t then update h p { h p with firstChild := next } else h
  let h := setNext h prev next
  let h := setPrev h next prev
  -- "making orphans is not implemented"
  assert ((h t).firstChild = none)
  some h

/-! ## `TaskManager` -/

/-- `updateNextTid`, for at most `fuel` numbers. -/
def updateNextTid (tasks : List Tid) : Nat → Nat → Option Nat
  | 0, _ => none
  | fuel + 1, n => if n ∈ tasks then updateNextTid tasks fuel ((n + 1) % 2 ^ 32) else some n

/-- A task that has just been made. -/
def newHolder (parent : Option Tid) : HierarchyHolder := ⟨parent, none, none, none⟩

/-- The tree with a new task. -/
def Tree.insert (T : Tree) (n : Tid) (parent : Option Tid) : Tree where
  tasks := n :: T.tasks
  hh := update T.hh n (newHolder parent)
  zombie := update T.zombie n false

/-- `addTask` up to `addChild`. The task with the number 1 gets no parent. -/
def addTask (s : State) (x : Tid) : Option State := do
  let n ← updateNextTid s.tree.tasks (s.tree.tasks.length + 1) s.nextTid
  let pc := update s.pc n .run
  some { s with
    tree := s.tree.insert n (if 1 < n then some x else none)
    nextTid := (n + 1) % 2 ^ 32
    pc := if 1 < n then update pc x (.addChild n .child) else pc }

/-- `wait` for a task, up to the wait for its exit. A task without a parent cannot be asked for
it. -/
def waitFor (s : State) (x tid : Tid) : Option State :=
  if tid ∈ s.tree.tasks then do
    let p ← s.tree.parent tid
    -- "Waiting on a non-child"
    if p = x then some (s.goto x (.awaiting tid)) else some (s.goto x .run)
  else some (s.goto x .run)

/-- `static_cast<pid_t>(-1)`. -/
def ANY : Tid := 2 ^ 32 - 1

def wait (s : State) (x tid : Tid) : Option State :=
  if tid = ANY then some (s.goto x (.firstChild .lock)) else waitFor s x tid

/-- The next step of `x`, inside one of these functions. -/
def advance (s : State) (x : Tid) (i : Nat) : Option State :=
  match s.pc x with
  | .run => none
  | .addChild c .child => lock s x c (.addChild c .parent)
  | .addChild c .parent => lock s x x (.addChild c .first)
  | .addChild c .first => lockIf s x (s.tree.first x) (.addChild c .link)
  | .addChild c .link => do
      let h ← link s.tree.hh x c
      some { s with tree := { s.tree with hh := h }, pc := update s.pc x (.addChild c .unlock) }
  | .addChild _ .unlock => unlock s x i (some (s.goto x .run))
  | .firstChild .lock => lock s x x (.firstChild .read)
  | .firstChild .read => some (s.goto x (.firstChild (.unlock (s.tree.first x))))
  | .firstChild (.unlock none) => unlock s x i (some (s.goto x .run))
  | .firstChild (.unlock (some tid)) => unlock s x i (waitFor s x tid)
  | .awaiting t => do
      assert (s.tree.zombie t = true)
      assert (t ∈ s.tree.tasks)
      some (s.goto x (.remove t .parent))
  | .remove t .parent => lockIf s x (s.tree.parent t) (.remove t .prev)
  | .remove t .prev => lockIf s x (s.tree.prev t) (.remove t .self)
  | .remove t .self => lock s x t (.remove t .next)
  | .remove t .next => lockIf s x (s.tree.next t) (.remove t (.child (s.tree.first t)))
  | .remove t (.child (some c)) => lock s x c (.remove t (.child (s.tree.next c)))
  | .remove t (.child none) => some (s.goto x (.remove t .unlink))
  | .remove t .unlink => do
      let h ← unlink s.tree.hh t
      some { s with tree := { s.tree with hh := h }, pc := update s.pc x (.remove t .unlock) }
  | .remove t .unlock => unlock s x i
      (some { s with
        tree := { s.tree with tasks := s.tree.tasks.erase t }
        pc := update s.pc x .run })

inductive Action where
  /-- `addTask`, also of `clone`. -/
  | addTask (x : Tid)
  | wait (x tid : Tid)
  | terminateCurrentTask (x : Tid)
  /-- With the mutex to be given back, where there is a choice. -/
  | advance (x : Tid) (i : Nat := 0)

/-- Who takes the step. -/
def Action.by : Action → Tid
  | .addTask x => x
  | .wait x _ => x
  | .terminateCurrentTask x => x
  | .advance x _ => x

def act (s : State) : Action → Option State
  | .addTask x => do
      assert (s.pc x = .run)
      addTask s x
  | .wait x tid => do
      assert (s.pc x = .run)
      wait s x tid
  | .terminateCurrentTask x => do
      assert (s.pc x = .run)
      -- "PID 1 is dead"
      assert (x ≠ 1)
      some { s with tree := { s.tree with zombie := update s.tree.zombie x true } }
  | .advance x i => advance s x i

/-- A step of a task that is there and has not exited. -/
def step (s : State) (a : Action) : Option State := do
  assert (a.by ∈ s.tree.tasks ∧ s.tree.zombie a.by = false)
  act s a

/-- The mutex that `x` is about to lock. -/
def wants (s : State) (x : Tid) : Option Tid :=
  match s.pc x with
  | .addChild c .child => some c
  | .addChild _ .parent => some x
  | .addChild _ .first => s.tree.first x
  | .firstChild .lock => some x
  | .remove t .parent => s.tree.parent t
  | .remove t .prev => s.tree.prev t
  | .remove t .self => some t
  | .remove t .next => s.tree.next t
  | .remove _ (.child cur) => cur
  | _ => none

/-- `x` waits for a mutex that `y` has. -/
def Waits (s : State) (x y : Tid) : Prop := ∃ m, wants s x = some m ∧ s.holder m = some y

/-! ## What the links are afterwards -/

section Links

variable {h h' : Tid → HierarchyHolder} {p c t : Tid}

theorem setPrev_apply (t v : Option Tid) (u : Tid) :
    setPrev h t v u = if t = some u then { h u with prevSibling := v } else h u := by
  unfold setPrev
  cases t with
  | none => simp
  | some t =>
    by_cases htu : u = t
    · subst htu
      simp
    · simp [update_of_ne htu, Ne.symm htu]

theorem setNext_apply (t v : Option Tid) (u : Tid) :
    setNext h t v u = if t = some u then { h u with nextSibling := v } else h u := by
  unfold setNext
  cases t with
  | none => simp
  | some t =>
    by_cases htu : u = t
    · subst htu
      simp
    · simp [update_of_ne htu, Ne.symm htu]

theorem link_spec (hl : link h p c = some h') :
    (h c).prevSibling = none ∧ (h p).firstChild ≠ some c ∧ ∀ u,
      (h' u).parent = (h u).parent ∧
      (h' u).firstChild = (if u = p then some c else (h u).firstChild) ∧
      (h' u).nextSibling = (if u = c then (h p).firstChild else (h u).nextSibling) ∧
      (h' u).prevSibling = if (h p).firstChild = some u then some c else (h u).prevSibling := by
  obtain ⟨-, hl⟩ := of_assert hl
  obtain ⟨hprev, hl⟩ := of_assert hl
  obtain ⟨-, hl⟩ := of_assert hl
  cases hl
  rw [setPrev_apply] at hprev
  have hne : (h p).firstChild ≠ some c := by
    intro he
    rw [if_pos he] at hprev
    cases hprev
  rw [if_neg hne] at hprev
  refine ⟨hprev, hne, fun u => ?_⟩
  by_cases hup : u = p <;> by_cases huc : u = c <;> by_cases huf : (h p).firstChild = some u <;>
    simp_all [setPrev_apply]

theorem unlink_spec (hl : unlink h t = some h') : ∃ p, (h t).parent = some p ∧
    (h' t).firstChild = none ∧ ∀ u,
      (h' u).parent = (h u).parent ∧
      (h' u).firstChild = (if u = p ∧ (h p).firstChild = some t then (h t).nextSibling
        else (h u).firstChild) ∧
      (h' u).nextSibling = (if (h t).prevSibling = some u then (h t).nextSibling
        else (h u).nextSibling) ∧
      (h' u).prevSibling = if (h t).nextSibling = some u then (h t).prevSibling
        else (h u).prevSibling := by
  obtain ⟨p, hp, hl⟩ := of_bind hl
  obtain ⟨hfirst, hl⟩ := of_assert hl
  cases hl
  refine ⟨p, hp, hfirst, fun u => ?_⟩
  have hparent : ∀ v : Option Tid, (if (h p).firstChild = some t then
      update h p { h p with firstChild := v } else h) u
        = if u = p ∧ (h p).firstChild = some t then { h u with firstChild := v } else h u := by
    by_cases hup : u = p
    · subst hup
      split <;> simp_all
    · split <;> simp [hup]
  simp only [setPrev_apply, setNext_apply, hparent]
  refine ⟨?_, ?_, ?_, ?_⟩ <;> split_ifs <;> rfl

/-- A task with children cannot be removed, and one without can. -/
theorem unlink_eq_none_iff (hp : (h t).parent = some p) (hne : t ≠ p) :
    unlink h t = none ↔ (h t).firstChild ≠ none := by
  have hkeep : ∀ (a b v : Option Tid), (setPrev (setNext (if (h p).firstChild = some t then
      update h p { h p with firstChild := v } else h) a v) v b t).firstChild
        = (h t).firstChild := by
    intro a b v
    have hself : (if (h p).firstChild = some t then
        update h p { h p with firstChild := v } else h) t = h t := by
      split
      · exact update_of_ne hne _ _
      · rfl
    simp only [setPrev_apply, setNext_apply, hself]
    split_ifs <;> rfl
  unfold unlink
  rw [hp]
  show (assert _).bind _ = none ↔ _
  unfold assert
  split <;> simp_all

end Links

end Flix.Tasks

import Flix.Sync.Model
import Mathlib.Data.Set.Card

/-!
# Permits and waiter lists

What `down` and `up` keep true of every semaphore, whatever the tasks, the
handlers and the timer do in between. The invariant names two lists for each
semaphore: the waiters that have not been granted a permit, which is what the
intrusive list threads, and the ones that have been granted one and have not
noticed yet.

Most steps do not touch semaphores at all. `step_sem` sorts the steps into those
and the three kinds of sections that do, and every invariant about semaphores is
proved along it.
-/

namespace Flix.Sync

open Function Fifo Runs

variable {S C : Type}

/-! ## What a step does to the semaphores -/

/-- The semaphore a context is inside a contended `down` on. -/
def Pc.downOn : Pc S C → Option S
  | .downSleep s _ => some s
  | .downSaved s _ => some s
  | .downWoken s _ => some s
  | _ => none

@[simp] theorem Pc.downOn_run : (Pc.run : Pc S C).downOn = none := rfl
@[simp] theorem Pc.downOn_downSleep (s : S) (r : Bool) :
    (Pc.downSleep s r : Pc S C).downOn = some s := rfl

@[simp] theorem Pc.downOn_notifying (ws : List Ctx) :
    (Pc.notifying ws : Pc S C).downOn = none := by
  unfold Pc.notifying; split <;> rfl

/-- The two states agree on everything about semaphores. -/
structure SameSem (σ σ' : State S C) : Prop where
  sem : σ'.sem = σ.sem
  semWaiter : σ'.semWaiter = σ.semWaiter
  ups : σ'.ghost.ups = σ.ghost.ups
  returned : σ'.ghost.returned = σ.ghost.returned
  arrivals : σ'.ghost.arrivals = σ.ghost.arrivals
  grants : σ'.ghost.grants = σ.ghost.grants
  held : σ'.ghost.held = σ.ghost.held
  downOn : ∀ y, (σ'.pc y).downOn = (σ.pc y).downOn

theorem SameSem.refl (σ : State S C) : SameSem σ σ :=
  ⟨rfl, rfl, rfl, rfl, rfl, rfl, rfl, fun _ => rfl⟩

theorem SameSem.trans {σ1 σ2 σ3 : State S C} (h : SameSem σ1 σ2) (h' : SameSem σ2 σ3) :
    SameSem σ1 σ3 :=
  ⟨h'.sem.trans h.sem, h'.semWaiter.trans h.semWaiter, h'.ups.trans h.ups,
    h'.returned.trans h.returned, h'.arrivals.trans h.arrivals, h'.grants.trans h.grants,
    h'.held.trans h.held, fun y => (h'.downOn y).trans (h.downOn y)⟩

variable {σ σ' : State S C} {x : Ctx} {next : Option Tid} {c : C} {m s : S} {r : Bool}
  {op : Call S C} {a : Action S C} {t : Tid}

/-- Moving a context to a place of the same `down`, or from none to none. -/
theorem SameSem.setPc {σ1 : State S C} {p : Pc S C} (h : SameSem σ σ1)
    (hp : p.downOn = (σ.pc x).downOn) : SameSem σ (σ1.setPc x p) := by
  refine { h with downOn := fun y => ?_ }
  by_cases hy : y = x
  · subst hy; rw [State.setPc_self, hp]
  · rw [σ1.setPc_of_ne hy, h.downOn]

theorem scheduleNext_eq (h : scheduleNext σ next = some σ') : σ' = { σ with active := next }
      ∧ ∀ t, next = some t → t ∈ σ.tasks ∧ σ.taskState t = .Runnable := by
  obtain ⟨_, h⟩ := of_assert h
  cases next with
  | none =>
    obtain ⟨_, h⟩ := of_assert h
    cases h; exact ⟨rfl, nofun⟩
  | some t =>
    obtain ⟨ht, h⟩ := of_assert h
    cases h
    exact ⟨rfl, fun t' e => Option.some.inj e ▸ ht⟩

theorem putMeToSleep_eq {saved woken : Pc S C} (h : putMeToSleep σ x saved woken next = some σ') :
    ∃ t, σ.active = some t ∧
      ((σ.taskState t = .Sleeping ∧ scheduleNext (σ.setPc x saved) next = some σ')
        ∨ (σ.taskState t ≠ .Sleeping ∧ σ' = σ.setPc x woken)) := by
  obtain ⟨t, ht, h⟩ := of_bind h
  refine ⟨t, ht, ?_⟩
  split at h
  · exact Or.inl ⟨‹_›, h⟩
  · cases h; exact Or.inr ⟨‹_›, rfl⟩

/-- The places before, inside and after a `putMeToSleep`. -/
inductive Naps : Pc S C → Pc S C → Pc S C → Prop where
  | down (s : S) (r : Bool) : Naps (.downSleep s r) (.downSaved s r) (.downWoken s r)
  | wait (c : C) (m : S) : Naps (.waitSleep c m) (.waitSaved c m) (.waitWoken c m)

theorem notifyOne_cases [DecidableEq C] (h : notifyOne σ x c = some σ') :
    ((σ.cond c).waiters.first = none ∧ σ' = σ) ∨ ∃ w, (σ.cond c).waiters.first = some w
      ∧ σ' = (unlinkCond σ c).setPc x (.notifying [w]) := by
  unfold notifyOne at h
  split at h
  · obtain ⟨_, h⟩ := of_assert h
    cases h; exact Or.inl ⟨‹_›, rfl⟩
  · cases h; exact Or.inr ⟨_, ‹_›, rfl⟩

section Steps

variable [DecidableEq S]

theorem waitRound_inv (h : waitRound σ x c m = some σ') : ∃ t σ1, σ.active = some t
      ∧ up (prepareMeForSleep { σ with ghost := σ.ghost.waitUp x } t) x m = some σ1
      ∧ σ' = σ1.setPc x (.waitSleep c m) := by
  obtain ⟨t, ht, h⟩ := of_bind h
  obtain ⟨σ1, hu, h⟩ := of_bind h
  cases h
  exact ⟨t, σ1, ht, hu, rfl⟩

theorem down_cases (h : down σ x s r = some σ') :
    (0 < (σ.sem s).count ∧ σ' = finishDown (takePermit σ x s) x s r)
      ∨ ∃ t, (σ.sem s).count = 0 ∧ σ.active = some t
        ∧ σ' = (prepareMeForSleep (linkSem σ x s) t).setPc x (.downSleep s r) := by
  unfold down at h
  split at h
  · cases h; exact Or.inl ⟨‹_›, rfl⟩
  · obtain ⟨t, ht, h⟩ := of_bind h
    obtain ⟨_, h⟩ := of_assert h
    cases h; exact Or.inr ⟨t, by omega, ht, rfl⟩

/-- The sections inside a call. -/
inductive Advances (σ : State S C) (x : Ctx) (next : Option Tid) : State S C → Prop where
  /-- A handler returns. -/
  | leave (n : Option Tid) (hp : σ.pc x = .run) (hn : ∀ t, n = some t → σ.active = some t ∨
      (t ∈ σ.tasks ∧ σ.taskState t = .Runnable)) :
      Advances σ x next { σ with handler := update σ.handler x none, active := n }
  /-- `putMeToSleep` switches away. -/
  | save {p saved woken : Pc S C} (hn : Naps p saved woken) (hp : σ.pc x = p)
      (hnext : ∀ t, next = some t → t ∈ σ.tasks ∧ σ.taskState t = .Runnable) :
      Advances σ x next { σ.setPc x saved with active := next }
  /-- It returns, at once or when it is switched back to. -/
  | wake {p saved woken : Pc S C} (hn : Naps p saved woken) (hp : σ.pc x = saved ∨
      (σ.pc x = p ∧ ∃ t, σ.active = some t ∧ σ.taskState t ≠ .Sleeping)) :
      Advances σ x next (σ.setPc x woken)
  | finish (s : S) (r : Bool) (hp : σ.pc x = .downWoken s r) (hu : σ.semWaiter.up x = true) :
      Advances σ x next (finishDown σ x s r)
  | again (s : S) (r : Bool) (t : Tid) (hp : σ.pc x = .downWoken s r)
      (hu : σ.semWaiter.up x ≠ true) :
      Advances σ x next ((prepareMeForSleep σ t).setPc x (.downSleep s r))
  | trigger (c : C) (m : S) (hp : σ.pc x = .waitWoken c m) (hu : σ.condWaiter.up x = true) :
      Advances σ x next (σ.setPc x (.waitLock m))
  | round {σ' : State S C} (c : C) (m : S) (hp : σ.pc x = .waitWoken c m)
      (hu : σ.condWaiter.up x ≠ true) (e : waitRound σ x c m = some σ') : Advances σ x next σ'
  | lock {σ' : State S C} (m : S) (hp : σ.pc x = .waitLock m)
      (e : down { σ with ghost := σ.ghost.waitDown x } x m true = some σ') : Advances σ x next σ'
  | notified (hp : σ.pc x = .notify []) : Advances σ x next (σ.setPc x .run)
  | setUp (w : Ctx) (ws : List Ctx) (hp : σ.pc x = .notify (w :: ws)) :
      Advances σ x next ((setUp σ w).setPc x (.notifyWake w ws))
  | wakeUp (w : Ctx) (ws : List Ctx) (t : Tid) (hp : σ.pc x = .notifyWake w ws)
      (ht : w.tid = some t) : Advances σ x next ((wakeUpTask σ t).setPc x (.notifying ws))

theorem advance_cases (h : advance σ x next = some σ') : Advances σ x next σ' := by
  have hput : ∀ {p saved woken : Pc S C}, Naps p saved woken → σ.pc x = p →
      putMeToSleep σ x saved woken next = some σ' → Advances σ x next σ' := by
    intro p saved woken hn hp h
    obtain ⟨t, ht, ⟨_, h⟩ | ⟨hs, rfl⟩⟩ := putMeToSleep_eq h
    · obtain ⟨rfl, hnext⟩ := scheduleNext_eq h
      exact .save hn hp hnext
    · exact .wake hn (.inr ⟨hp, t, ht, hs⟩)
  unfold advance at h
  split at h
  · rename_i hp
    split at h
    · dsimp only at h
      split at h
      · obtain ⟨rfl, hnext⟩ := scheduleNext_eq h
        exact .leave next hp fun t ht => .inr (hnext t ht)
      · cases h
        exact .leave σ.active hp fun t ht => .inl ht
    · cases h
  · exact hput (.down _ _) ‹_› h
  · cases h
    exact .wake (.down _ _) (.inl ‹_›)
  · rename_i s r hp
    split at h
    · cases h
      exact .finish s r hp ‹_›
    · obtain ⟨t, _, h⟩ := of_bind h
      cases h
      exact .again s r t hp ‹_›
  · exact hput (.wait _ _) ‹_› h
  · cases h
    exact .wake (.wait _ _) (.inl ‹_›)
  · rename_i c m hp
    split at h
    · cases h
      exact .trigger c m hp ‹_›
    · exact .round c m hp ‹_› h
  · exact .lock _ ‹_› h
  · cases h
    exact .notified ‹_›
  · cases h
    exact .setUp _ _ ‹_›
  · obtain ⟨t, ht, h⟩ := of_bind h
    cases h
    exact .wakeUp _ _ t ‹_› ht

theorem up_cases (h : up σ x s = some σ') : ((σ.sem s).waiters.first = none ∧ σ' = giveBack σ x s)
      ∨ ∃ w t, (σ.sem s).waiters.first = some w ∧ w.tid = some t ∧ σ' = handOver σ x s w t := by
  unfold up at h
  split at h
  · obtain ⟨_, h⟩ := of_assert h
    cases h; exact Or.inl ⟨‹_›, rfl⟩
  · obtain ⟨_, h⟩ := of_assert h
    obtain ⟨t, ht, h⟩ := of_bind h
    cases h; exact Or.inr ⟨_, t, ‹_›, ht, rfl⟩

theorem up_pc (h : up σ x s = some σ') : σ'.pc = σ.pc := by
  obtain ⟨_, rfl⟩ | ⟨w, t, _, _, rfl⟩ := up_cases h <;> rfl

/-- The `up` that an action performs, and the context that performs it. -/
def upOf (σ : State S C) : Action S C → Option (Ctx × S)
  | .call (.up s) => σ.cur.map (·, s)
  | .call (.wait _ m) => σ.cur.map (·, m)
  | .advance _ => σ.cur.bind fun x =>
    match σ.pc x with
    | .waitWoken _ m => if σ.condWaiter.up x then none else some (x, m)
    | _ => none
  | _ => none

/-- How a step can touch the semaphores. -/
inductive SemStep (σ : State S C) (a : Action S C) (σ' : State S C) : Prop where
  /-- Not at all. -/
  | none (h : SameSem σ σ') : SemStep σ a σ'
  /-- The first section of a `down`. -/
  | down (x : Ctx) (s : S) (r : Bool) (σ₁ : State S C) (hc : σ.cur = some x) (h : SameSem σ σ₁)
      (hx : (σ.pc x).downOn = Option.none) (e : down σ₁ x s r = some σ') : SemStep σ a σ'
  /-- An `up`. -/
  | up (x : Ctx) (s : S) (σ₁ σ₂ : State S C) (hu : upOf σ a = some (x, s)) (h : SameSem σ σ₁)
      (e : up σ₁ x s = some σ₂) (h' : SameSem σ₂ σ') : SemStep σ a σ'
  /-- The last section of a contended `down`. -/
  | finish (x : Ctx) (s : S) (r : Bool) (hp : σ.pc x = .downWoken s r)
      (hu : σ.semWaiter.up x = true) (e : σ' = finishDown σ x s r) : SemStep σ a σ'

theorem semStep_waitRound {σ0 : State S C}
    (hs : SameSem σ σ0) (hx : (σ.pc x).downOn = none) (hu : upOf σ a = some (x, m))
    (h : waitRound σ0 x c m = some σ') : SemStep σ a σ' := by
  obtain ⟨t, σ1, _, e, rfl⟩ := waitRound_inv h
  refine .up x m _ σ1 hu ?_ e ((SameSem.refl σ1).setPc ?_)
  · exact hs.trans { SameSem.refl σ0 with }
  · rw [up_pc e]
    exact ((hs.downOn x).trans hx).symm

variable [DecidableEq C]

/-- A task makes any call, a handler the next of its list. -/
theorem takeCall_cases (h : takeCall σ x op = some σ') :
    ∃ k, σ' = { σ with handler := k } ∧ ((σ.handler x = none ∧ k = σ.handler)
      ∨ ∃ rest, σ.handler x = some (op :: rest) ∧ k = update σ.handler x (some rest)) := by
  unfold takeCall at h
  split at h
  · cases h; exact ⟨_, rfl, Or.inl ⟨‹_›, rfl⟩⟩
  · cases h
  · rename_i o rest hh
    obtain ⟨ho, h'⟩ := of_assert h
    cases h'
    exact ⟨_, rfl, Or.inr ⟨rest, ho ▸ hh, rfl⟩⟩

theorem step_call_inv (h : step σ (.call op) = some σ') : ∃ x k, σ.cur = some x ∧ σ.pc x = .run
      ∧ ((σ.handler x = none ∧ k = σ.handler)
        ∨ ∃ rest, σ.handler x = some (op :: rest) ∧ k = update σ.handler x (some rest))
      ∧ call { σ with handler := k } x op = some σ' := by
  obtain ⟨x, hx, h⟩ := of_bind h
  obtain ⟨hp, h⟩ := of_assert h
  obtain ⟨σ1, ht, h⟩ := of_bind h
  obtain ⟨k, rfl, hk⟩ := takeCall_cases ht
  exact ⟨x, k, hx, hp, hk, h⟩

theorem wait_inv (h : wait σ x c m = some σ') :
    waitRound (linkCond { σ with ghost := σ.ghost.beginWait x } x c) x c m = some σ' := by
  obtain ⟨_, h⟩ := of_assert h
  obtain ⟨_, h⟩ := of_assert h
  exact h

theorem semStep_call (h : step σ (.call op) = some σ') : SemStep σ (.call op) σ' := by
  obtain ⟨x, k, hx, hp, _, h⟩ := step_call_inv h
  have hk : SameSem σ { σ with handler := k } := { SameSem.refl σ with }
  have hd : (σ.pc x).downOn = none := by rw [hp]; rfl
  cases op with
  | down s => exact .down x s false _ hx hk hd h
  | up s => exact .up x s _ _ (by simp [upOf, hx]) hk h (SameSem.refl _)
  | wait c m =>
    refine semStep_waitRound ?_ hd (by simp [upOf, hx]) (wait_inv h)
    exact { SameSem.refl σ with }
  | notifyOne c =>
    refine .none ?_
    obtain ⟨_, rfl⟩ | ⟨w, _, rfl⟩ := notifyOne_cases h
    · exact hk
    · exact SameSem.setPc { SameSem.refl σ with } (by rw [Pc.downOn_notifying, hd])
  | notifyAll c =>
    refine .none ?_
    obtain ⟨ws, _, h⟩ := of_bind h
    cases h
    exact SameSem.setPc { SameSem.refl σ with } (by rw [Pc.downOn_notifying, hd])

theorem semStep_advance (h : step σ (.advance next) = some σ') : SemStep σ (.advance next) σ' := by
  obtain ⟨x, hx, h⟩ := of_bind h
  cases advance_cases h with
  | leave n => exact .none { SameSem.refl σ with }
  | save hn hp =>
    refine .none (((SameSem.refl σ).setPc ?_).trans { SameSem.refl _ with })
    rw [hp]; cases hn <;> rfl
  | wake hn hp =>
    refine .none ((SameSem.refl σ).setPc ?_)
    rcases hp with hp | ⟨hp, _⟩ <;> rw [hp] <;> cases hn <;> rfl
  | finish s r hp hu => exact .finish x s r hp hu rfl
  | again s r t hp => exact .none (SameSem.setPc { SameSem.refl σ with } (by rw [hp]; rfl))
  | trigger c m hp => exact .none ((SameSem.refl σ).setPc (by rw [hp]; rfl))
  | round c m hp hu e =>
    exact semStep_waitRound (SameSem.refl σ) (by rw [hp]; rfl)
      (by simp only [upOf, hx, bind_some, hp]; rw [if_neg hu]) e
  | lock m hp e =>
    refine .down x m true _ hx ?_ (by rw [hp]; rfl) e
    exact { SameSem.refl σ with }
  | notified hp => exact .none ((SameSem.refl σ).setPc (by rw [hp]; rfl))
  | setUp w ws hp => exact .none (SameSem.setPc { SameSem.refl σ with } (by rw [hp]; rfl))
  | wakeUp w ws t hp =>
    exact .none (SameSem.setPc { SameSem.refl σ with } (by rw [hp, Pc.downOn_notifying]; rfl))

/-- What a step can do to the semaphores. -/
theorem semStep_step (h : step σ a = some σ') : SemStep σ a σ' := by
  cases a with
  | call op => exact semStep_call h
  | advance next => exact semStep_advance h
  | timer next =>
    obtain ⟨_, h⟩ := of_assert h
    rw [(scheduleNext_eq h).1]
    exact .none { SameSem.refl σ with }
  | irq calls =>
    obtain ⟨_, h⟩ := of_assert h
    cases h
    exact .none { SameSem.refl σ with }

end Steps

/-! ## The permits -/

/-- What holds of every semaphore. `waiting` and `pending` list the contexts inside a
contended `down`, before and after they are granted their permit. -/
structure SemInv (waiting pending : S → List Ctx) (σ : State S C) : Prop where
  /-- The intrusive list threads the ungranted waiters. -/
  threads : ∀ s, Represents σ.semWaiter.next (σ.sem s).waiters (waiting s)
  /-- They are the contexts inside a `down` whose `Waiter` is not up. -/
  mem_waiting : ∀ s x, x ∈ waiting s ↔ (σ.pc x).downOn = some s ∧ σ.semWaiter.up x = false
  /-- The granted ones are those whose `Waiter` is up. -/
  mem_pending : ∀ s x, x ∈ pending s ↔ (σ.pc x).downOn = some s ∧ σ.semWaiter.up x = true
  pending_nodup : ∀ s, (pending s).Nodup
  /-- Nobody waits while there is a permit. -/
  free : ∀ s, 0 < (σ.sem s).count → waiting s = []
  /-- Permits are granted in the order of arrival. -/
  order : ∀ s, σ.ghost.arrivals s = σ.ghost.grants s ++ waiting s

/-- No permit is lost or created. -/
def Permits (n : S → Nat) (pending : S → List Ctx) (σ : State S C) : Prop :=
  ∀ s, (σ.sem s).count + σ.ghost.returned s + (pending s).length = n s + σ.ghost.ups s

variable {n : S → Nat} {waiting pending : S → List Ctx}

theorem SemInv.of_same (h : SemInv waiting pending σ) (hs : SameSem σ σ') :
    SemInv waiting pending σ' where
  threads s := by rw [hs.sem, hs.semWaiter]; exact h.threads s
  mem_waiting s x := by rw [hs.downOn, hs.semWaiter]; exact h.mem_waiting s x
  mem_pending s x := by rw [hs.downOn, hs.semWaiter]; exact h.mem_pending s x
  pending_nodup := h.pending_nodup
  free s := by rw [hs.sem]; exact h.free s
  order s := by rw [hs.arrivals, hs.grants]; exact h.order s

/-- A context that waits on one semaphore does not wait on another. -/
theorem SemInv.notMem_of_ne (h : SemInv waiting pending σ) {s' : S} (hne : s' ≠ s)
    (hx : x ∈ waiting s) : x ∉ waiting s' := by
  intro hx'
  have h1 := ((h.mem_waiting s x).mp hx).1
  rw [((h.mem_waiting s' x).mp hx').1] at h1
  exact hne (Option.some.inj h1)

theorem Permits.of_same (h : Permits n pending σ) (hs : SameSem σ σ') :
    Permits n pending σ' := by
  intro s
  rw [hs.sem, hs.returned, hs.ups]
  exact h s

theorem semInv_init (n : S → Nat) (garbage : C → Nat) (tasks : List Tid) :
    SemInv (fun _ => []) (fun _ => []) (init n garbage tasks) where
  threads _ := Represents.empty _
  mem_waiting _ _ := by simp [init]
  mem_pending _ _ := by simp [init]
  pending_nodup _ := List.nodup_nil
  free _ _ := rfl
  order _ := rfl

/-! ### What the primitives promise -/

/-- The contexts inside a `down` on `s` that have been granted their permit. -/
def granted (σ : State S C) (s : S) : Set Ctx :=
  { x | (σ.pc x).downOn = some s ∧ σ.semWaiter.up x = true }

/-- The contract of the semaphore `s`, initialised to `n`. -/
structure SemaphoreSafe (n : Nat) (σ : State S C) (s : S) : Prop where
  /-- Finitely many `down`s are granted and have not returned. -/
  finite : (granted σ s).Finite
  /-- No permit is lost or created. -/
  permits : (σ.sem s).count + (σ.ghost.returned s + (granted σ s).ncard) = n + σ.ghost.ups s
  /-- A positive count means that nobody waits. -/
  free : 0 < (σ.sem s).count → (σ.sem s).waiters.first = none
  /-- `_firstWaiter` and `_lastWaiter` are null together. -/
  ends : (σ.sem s).waiters.first = none ↔ (σ.sem s).waiters.last = none
  /-- The list holds exactly the ungranted waiters, in the order of their arrival, and all
  who arrived before them have been granted a permit, in that order too. -/
  fifo : ∃ l, Represents σ.semWaiter.next (σ.sem s).waiters l
    ∧ (∀ x, x ∈ l ↔ (σ.pc x).downOn = some s ∧ σ.semWaiter.up x = false)
    ∧ σ.ghost.arrivals s = σ.ghost.grants s ++ l

theorem SemInv.safe (h : SemInv waiting pending σ) (hp : Permits n pending σ) (s : S) :
    SemaphoreSafe (n s) σ s := by
  have hset : granted σ s = { x | x ∈ pending s } := by
    ext x
    exact (h.mem_pending s x).symm
  have hcard : (granted σ s).ncard = (pending s).length := by
    rw [hset, ← List.coe_toFinset, Set.ncard_coe_finset,
      List.toFinset_card_of_nodup (h.pending_nodup s)]
  refine ⟨?_, ?_, ?_, ?_, waiting s, h.threads s, h.mem_waiting s, h.order s⟩
  · rw [hset]
    exact List.finite_toSet _
  · rw [← hp s]
    omega
  · intro hc
    exact (h.threads s).first_none.mpr (h.free s hc)
  · rw [(h.threads s).first_none, (h.threads s).last_none]

/-! ### The sections -/

variable [DecidableEq S]

theorem SemInv.takePermit (h : SemInv waiting pending σ)
    (hx : (σ.pc x).downOn = none) (hc : 0 < (σ.sem s).count) :
    SemInv waiting pending (finishDown (takePermit σ x s) x s r) where
  threads s' := by
    by_cases hs : s' = s
    · subst hs; simpa [finishDown, Sync.takePermit] using h.threads s'
    · simpa [finishDown, Sync.takePermit, update_of_ne hs] using h.threads s'
  mem_waiting s' y := by
    rw [h.mem_waiting]
    by_cases hy : y = x
    · subst hy; simp [finishDown, hx]
    · simp [finishDown, Sync.takePermit, update_of_ne hy]
  mem_pending s' y := by
    rw [h.mem_pending]
    by_cases hy : y = x
    · subst hy; simp [finishDown, hx]
    · simp [finishDown, Sync.takePermit, update_of_ne hy]
  pending_nodup := h.pending_nodup
  free s' := by
    by_cases hs : s' = s
    · subst hs; exact fun _ => h.free s' hc
    · simpa [finishDown, Sync.takePermit, update_of_ne hs] using h.free s'
  order s' := by
    by_cases hs : s' = s
    · subst hs
      have := h.order s'
      rw [h.free s' hc] at this ⊢
      simp [finishDown, Sync.takePermit, Ghost.return, Ghost.grant, Ghost.arrive, this]
    · simpa [finishDown, Sync.takePermit, Ghost.return, Ghost.grant, Ghost.arrive,
        update_of_ne hs] using h.order s'

theorem SemInv.link (h : SemInv waiting pending σ)
    (hx : (σ.pc x).downOn = none) (hc : (σ.sem s).count = 0) :
    SemInv (update waiting s (waiting s ++ [x])) pending
      ((prepareMeForSleep (linkSem σ x s) t).setPc x (.downSleep s r)) := by
  have hnot : ∀ s', x ∉ waiting s' := fun s' hm => by
    have := ((h.mem_waiting s' x).mp hm).1
    rw [hx] at this; cases this
  have hpend : ∀ s', x ∉ pending s' := fun s' hm => by
    have := ((h.mem_pending s' x).mp hm).1
    rw [hx] at this; cases this
  refine ⟨fun s' => ?_, fun s' y => ?_, fun s' y => ?_, h.pending_nodup, fun s' => ?_,
    fun s' => ?_⟩
  · by_cases hs : s' = s
    · subst hs
      simpa [linkSem, prepareMeForSleep, State.setPc] using (h.threads s').push (hnot s')
    · simp only [linkSem, prepareMeForSleep, State.setPc, update_of_ne hs]
      refine (h.threads s').congr (fun y hy => ?_)
      exact (h.threads s).pushNext_of_notMem (h.notMem_of_ne (Ne.symm hs) hy)
        (fun e => hnot s' (e ▸ hy))
  · by_cases hy : y = x
    · subst hy
      by_cases hs : s' = s
      · subst hs; simp [linkSem, prepareMeForSleep, State.setPc]
      · simp [update_of_ne hs, hnot s', Ne.symm hs]
    · have := h.mem_waiting s' y
      by_cases hs : s' = s
      · subst hs
        simpa [linkSem, prepareMeForSleep, State.setPc, hy] using this
      · simpa [linkSem, prepareMeForSleep, State.setPc, update_of_ne hy, update_of_ne hs] using this
  · by_cases hy : y = x
    · subst hy
      simp [linkSem, prepareMeForSleep, State.setPc, hpend s']
    · simpa [linkSem, prepareMeForSleep, State.setPc, update_of_ne hy] using h.mem_pending s' y
  · by_cases hs : s' = s
    · subst hs; intro hpos
      simp [linkSem, prepareMeForSleep, State.setPc, hc] at hpos
    · simpa [linkSem, prepareMeForSleep, State.setPc, update_of_ne hs] using h.free s'
  · by_cases hs : s' = s
    · subst hs
      simp [linkSem, prepareMeForSleep, State.setPc, Ghost.arrive, h.order s']
    · simpa [linkSem, prepareMeForSleep, State.setPc, Ghost.arrive, update_of_ne hs]
        using h.order s'

theorem SemInv.giveBack (h : SemInv waiting pending σ) (hf : (σ.sem s).waiters.first = none) :
    SemInv waiting pending (giveBack σ x s) where
  threads s' := by
    by_cases hs : s' = s
    · subst hs; simpa [Sync.giveBack] using h.threads s'
    · simpa [Sync.giveBack, update_of_ne hs] using h.threads s'
  mem_waiting := h.mem_waiting
  mem_pending := h.mem_pending
  pending_nodup := h.pending_nodup
  free s' := by
    by_cases hs : s' = s
    · subst hs; exact fun _ => (h.threads s').first_none.mp hf
    · simpa [Sync.giveBack, update_of_ne hs] using h.free s'
  order := h.order

theorem SemInv.handOver (h : SemInv waiting pending σ) {w : Ctx}
    {l : List Ctx} (hl : waiting s = w :: l) :
    SemInv (update waiting s l) (update pending s (w :: pending s)) (handOver σ x s w t) := by
  have hth := h.threads s
  rw [hl] at hth
  have hw : (σ.pc w).downOn = some s ∧ σ.semWaiter.up w = false :=
    (h.mem_waiting s w).mp (by rw [hl]; exact mem_cons_self)
  have hwl : w ∉ l := (nodup_cons.mp hth.nodup).1
  have hwp : w ∉ pending s := fun hm => by
    have := ((h.mem_pending s w).mp hm).2
    rw [hw.2] at this; cases this
  have hc : (σ.sem s).count = 0 := by
    by_contra hne
    have := h.free s (by omega)
    rw [hl] at this; cases this
  refine ⟨fun s' => ?_, fun s' y => ?_, fun s' y => ?_, fun s' => ?_, fun s' => ?_, fun s' => ?_⟩
  · by_cases hs : s' = s
    · subst hs; simpa [Sync.handOver, wakeUpTask] using hth.pop
    · simpa [Sync.handOver, wakeUpTask, update_of_ne hs] using h.threads s'
  · have hm := h.mem_waiting s' y
    by_cases hy : y = w
    · subst hy
      by_cases hs : s' = s
      · subst hs; simp [Sync.handOver, wakeUpTask, hwl]
      · simp only [Sync.handOver, wakeUpTask, update_of_ne hs, hm, hw.1]
        simp [Ne.symm hs]
    · by_cases hs : s' = s
      · subst hs
        rw [hl, mem_cons, or_iff_right hy] at hm
        simpa [Sync.handOver, wakeUpTask, update_of_ne hy] using hm
      · simpa [Sync.handOver, wakeUpTask, update_of_ne hy, update_of_ne hs] using hm
  · have hm := h.mem_pending s' y
    by_cases hy : y = w
    · subst hy
      by_cases hs : s' = s
      · subst hs; simp [Sync.handOver, wakeUpTask, hw.1]
      · simp only [Sync.handOver, wakeUpTask, update_of_ne hs, hm, hw.1]
        simp [Ne.symm hs]
    · by_cases hs : s' = s
      · subst hs
        simpa [Sync.handOver, wakeUpTask, hy] using hm
      · simpa [Sync.handOver, wakeUpTask, update_of_ne hy, update_of_ne hs] using hm
  · by_cases hs : s' = s
    · subst hs; simpa using ⟨hwp, h.pending_nodup s'⟩
    · simpa [update_of_ne hs] using h.pending_nodup s'
  · by_cases hs : s' = s
    · subst hs; intro hpos
      simp [Sync.handOver, wakeUpTask, hc] at hpos
    · simpa [Sync.handOver, wakeUpTask, update_of_ne hs] using h.free s'
  · have := h.order s'
    by_cases hs : s' = s
    · subst hs
      rw [hl] at this
      simp [Sync.handOver, wakeUpTask, Ghost.grant, Ghost.release, this]
    · simpa [Sync.handOver, wakeUpTask, Ghost.grant, Ghost.release, update_of_ne hs] using this

theorem SemInv.finish (h : SemInv waiting pending σ)
    (hp : σ.pc x = .downWoken s r) (hu : σ.semWaiter.up x = true) :
    SemInv waiting (update pending s ((pending s).erase x)) (finishDown σ x s r) := by
  have hd : (σ.pc x).downOn = some s := by rw [hp]; rfl
  refine ⟨h.threads, fun s' y => ?_, fun s' y => ?_, fun s' => ?_, h.free, h.order⟩
  · rw [h.mem_waiting]
    by_cases hy : y = x
    · subst hy; simp [finishDown, hu]
    · simp [finishDown, update_of_ne hy]
  · have hm := h.mem_pending s' y
    by_cases hy : y = x
    · subst hy
      by_cases hs : s' = s
      · subst hs; simp [finishDown, (h.pending_nodup s').mem_erase_iff]
      · simp only [finishDown, update_of_ne hs, hm, hd]
        simp [Ne.symm hs]
    · by_cases hs : s' = s
      · subst hs
        simpa [finishDown, hy] using hm
      · simpa [finishDown, update_of_ne hy, update_of_ne hs] using hm
  · by_cases hs : s' = s
    · subst hs; simpa using (h.pending_nodup s').erase x
    · simpa [update_of_ne hs] using h.pending_nodup s'

/-! ### Counting the permits -/

theorem Permits.down (h : Permits n pending σ)
    (e : down σ x s r = some σ') : Permits n pending σ' := by
  intro s'
  have := h s'
  obtain ⟨hc, rfl⟩ | ⟨t, _, _, rfl⟩ := down_cases e
  · by_cases hs : s' = s
    · subst hs
      simp only [finishDown, takePermit, Ghost.return, Ghost.grant, Ghost.arrive, update_self]
      omega
    · simpa [finishDown, takePermit, Ghost.return, update_of_ne hs]
  · by_cases hs : s' = s
    · subst hs; simpa [linkSem, prepareMeForSleep, State.setPc, Ghost.arrive] using this
    · simpa [linkSem, prepareMeForSleep, State.setPc, Ghost.arrive, update_of_ne hs] using this

theorem Permits.giveBack (h : Permits n pending σ)
    (hb : (σ.sem s).count + 1 < 2 ^ 32) : Permits n pending (giveBack σ x s) := by
  intro s'
  have := h s'
  by_cases hs : s' = s
  · subst hs
    simp only [Sync.giveBack, Ghost.release, update_self]
    omega
  · simpa [Sync.giveBack, Ghost.release, update_of_ne hs] using this

theorem Permits.handOver (h : Permits n pending σ) {w : Ctx} :
    Permits n (update pending s (w :: pending s)) (handOver σ x s w t) := by
  intro s'
  have := h s'
  by_cases hs : s' = s
  · subst hs
    simp only [Sync.handOver, wakeUpTask, Ghost.grant, Ghost.release, update_self,
      length_cons]
    omega
  · simpa [Sync.handOver, wakeUpTask, Ghost.grant, Ghost.release, update_of_ne hs] using this

theorem Permits.finish (h : Permits n pending σ) (hx : x ∈ pending s) :
    Permits n (update pending s ((pending s).erase x)) (finishDown σ x s r) := by
  intro s'
  have := h s'
  by_cases hs : s' = s
  · subst hs
    have hlen := List.length_erase_of_mem hx
    have hpos := List.length_pos_of_mem hx
    simp only [finishDown, Ghost.return, update_self]
    omega
  · simpa [finishDown, Ghost.return, update_of_ne hs] using this

variable [DecidableEq C]

/-- No count is about to wrap. -/
def CountOk (σ : State S C) (_ : Action S C) : Prop := ∀ s, (σ.sem s).count + 1 < 2 ^ 32

/-- Every step keeps the waiter lists, and the permits unless a count wraps. -/
theorem semInv_step (n : S → Nat) (h : SemInv waiting pending σ) (hs : step σ a = some σ') :
    ∃ waiting' pending', SemInv waiting' pending' σ'
      ∧ (CountOk σ a → Permits n pending σ → Permits n pending' σ') := by
  cases semStep_step hs with
  | none hsame => exact ⟨_, _, h.of_same hsame, fun _ hp => hp.of_same hsame⟩
  | down x s r σ1 _ hsame hx e =>
    have h1 := h.of_same hsame
    have hx1 : (σ1.pc x).downOn = none := by rw [hsame.downOn, hx]
    have hper := fun (_ : CountOk σ a) (hp : Permits n pending σ) => (hp.of_same hsame).down e
    obtain ⟨hc, rfl⟩ | ⟨t, hc, _, rfl⟩ := down_cases e
    · exact ⟨_, _, h1.takePermit hx1 hc, hper⟩
    · exact ⟨_, _, h1.link hx1 hc, hper⟩
  | up x s σ1 σ2 _ hsame e hsame' =>
    have h1 := h.of_same hsame
    obtain ⟨hf, rfl⟩ | ⟨w, t, hf, _, rfl⟩ := up_cases e
    · refine ⟨_, _, (h1.giveBack hf).of_same hsame', fun hok hp => ?_⟩
      have hb : (σ1.sem s).count + 1 < 2 ^ 32 := by rw [hsame.sem]; exact hok s
      exact ((hp.of_same hsame).giveBack hb).of_same hsame'
    · obtain ⟨l, hl⟩ := (h1.threads s).of_first hf
      exact ⟨_, _, (h1.handOver hl).of_same hsame',
        fun _ hp => (hp.of_same hsame).handOver.of_same hsame'⟩
  | finish x s r hp hu e =>
    have hx : x ∈ pending s := (h.mem_pending s x).mpr ⟨by rw [hp]; rfl, hu⟩
    exact ⟨_, _, e ▸ h.finish hp hu, fun _ hper => e ▸ hper.finish hx⟩

/-- Every semaphore keeps its contract in every state reached without a count wrapping. -/
theorem semaphoreSafe_reachable {garbage : C → Nat} {tasks : List Tid}
    (h : Reach step CountOk (init n garbage tasks) σ) (s : S) : SemaphoreSafe (n s) σ s := by
  have hi : ∃ waiting pending, SemInv waiting pending σ ∧ Permits n pending σ := by
    refine h.invariant (I := fun σ => ∃ w p, SemInv w p σ ∧ Permits n p σ) ?_ ?_
    · exact ⟨_, _, semInv_init n garbage tasks, fun _ => rfl⟩
    · rintro σ a σ' ⟨_, _, hi, hp⟩ hok hs
      obtain ⟨w, p, hi', hp'⟩ := semInv_step n hi hs
      exact ⟨w, p, hi', hp' hok hp⟩
  obtain ⟨_, _, hi, hp⟩ := hi
  exact hi.safe hp s

end Flix.Sync

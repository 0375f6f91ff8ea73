import Flix.Sync.CondLists

/-!
# No lost wake-up

A task declares itself `Sleeping` before it drops the lock and looks at its
state again in `putMeToSleep`. Between the two anything may happen: the timer
may switch to other tasks, and these may notify it. The invariant says that the
state of a task is `Sleeping` exactly while somebody still has to wake it: its
semaphore's list or its condition variable's list has it, or a notifier does.

Interrupt handlers are assumed not to block here. A handler that does resets the
state of the task it runs on, which is what `CondWait` is about.
-/

namespace Flix.Sync

open Function Fifo Runs

variable {S C : Type}

/-- Calls that can put their caller to sleep. -/
def Call.blocks : Call S C → Bool
  | .down _ => true
  | .wait _ _ => true
  | _ => false

/-- Places inside such calls. -/
def Pc.blocks : Pc S C → Bool
  | .run => false
  | .notify _ => false
  | .notifyWake _ _ => false
  | _ => true

@[simp] theorem Pc.blocks_notifying (ws : List Ctx) :
    (Pc.notifying ws : Pc S C).blocks = false := by
  unfold Pc.notifying; split <;> rfl

/-- Switched away from inside `putMeToSleep`. -/
def Pc.isSaved : Pc S C → Bool
  | .downSaved _ _ => true
  | .waitSaved _ _ => true
  | _ => false

/-- Between `prepareMeForSleep` and `putMeToSleep`. -/
def Pc.goesToSleep : Pc S C → Bool
  | .downSleep _ _ => true
  | .waitSleep _ _ => true
  | _ => false

theorem Pc.notifying_ne_downWoken {s : S} {r : Bool} {ws : List Ctx} :
    (Pc.notifying ws : Pc S C) ≠ .downWoken s r := by
  unfold Pc.notifying; split <;> nofun

theorem Pc.notifying_ne_waitWoken {c : C} {m : S} {ws : List Ctx} :
    Pc.notifying ws ≠ .waitWoken c m := by
  unfold Pc.notifying; split <;> nofun

@[simp] theorem Pc.isSaved_notifying (ws : List Ctx) :
    (Pc.notifying ws : Pc S C).isSaved = false := by
  unfold Pc.notifying; split <;> rfl

/-- The semaphore a context is asleep on, from its `prepareMeForSleep` to the return of its
`putMeToSleep`. -/
def Pc.dozesOn : Pc S C → Option S
  | .downSleep s _ => some s
  | .downSaved s _ => some s
  | _ => none

@[simp] theorem Pc.dozesOn_notifying (ws : List Ctx) :
    (Pc.notifying ws : Pc S C).dozesOn = none := by
  unfold Pc.notifying; split <;> rfl

variable {p : Pc S C} {s : S} {σ : State S C} {t : Tid} {x w : Ctx} {ws : List Ctx}

theorem Pc.downOn_of_dozesOn (h : p.dozesOn = some s) : p.downOn = some s := by
  cases p <;> simp_all [Pc.dozesOn, Pc.downOn]

theorem Pc.sleepsOn_of_downOn (h : p.downOn = some s) : p.sleepsOn = none := by
  cases p <;> simp_all [Pc.sleepsOn, Pc.downOn]

/-- Somebody still has to wake task `t`. -/
def Asleep (σ : State S C) (t : Tid) : Prop :=
  ((σ.pc (.task t)).dozesOn ≠ none ∧ σ.semWaiter.up (.task t) = false)
    ∨ ((σ.pc (.task t)).sleepsOn ≠ none
      ∧ (σ.condWaiter.up (.task t) = false ∨ ∃ y, .task t ∈ (σ.pc y).taken))

/-- Tasks are `Sleeping` exactly while somebody still has to wake them. -/
structure WakeInv (σ : State S C) : Prop where
  asleep : ∀ t, σ.taskState t = .Sleeping ↔ Asleep σ t
  /-- `putMeToSleep` returns only to a context that is up. -/
  semWoken : ∀ x s r, σ.pc x = .downWoken s r → σ.semWaiter.up x = true
  condWoken : ∀ x c m, σ.pc x = .waitWoken c m → σ.condWaiter.up x = true
  /-- A saved task runs again only after it was woken. -/
  active : ∀ t, σ.active = some t → (σ.pc (.task t)).isSaved = true → σ.taskState t ≠ .Sleeping
  /-- Handlers do not block, and are not tasks. -/
  handlers : ∀ x, (∀ t, x ≠ .task t) → (σ.pc x).blocks = false
  calls : ∀ x ops, σ.handler x = some ops → ∀ op ∈ ops, op.blocks = false
  tasks : ∀ t, σ.handler (.task t) = none

theorem Asleep.congr {σ' : State S C} (hd : (σ'.pc (.task t)).dozesOn = (σ.pc (.task t)).dozesOn)
    (hs : (σ'.pc (.task t)).sleepsOn = (σ.pc (.task t)).sleepsOn)
    (hu : σ'.semWaiter.up (.task t) = σ.semWaiter.up (.task t))
    (hc : σ'.condWaiter.up (.task t) = σ.condWaiter.up (.task t))
    (ht : ∀ y, .task t ∈ (σ'.pc y).taken ↔ .task t ∈ (σ.pc y).taken) :
    Asleep σ' t ↔ Asleep σ t := by
  unfold Asleep
  rw [hd, hs, hu, hc, exists_congr ht]

theorem State.cur_tid (h : σ.cur = some x) : σ.active = x.tid := by
  unfold State.cur at h
  split at h <;> split at h <;> cases h <;> assumption

theorem State.handler_of_cur (h : σ.cur = some x) (hx : σ.handler x = none) : ∃ t, x = .task t := by
  unfold State.cur at h
  split at h <;> split at h <;> cases h
  · simp_all
  · exact ⟨_, rfl⟩
  · simp_all

/-- Moving a context with what it has taken leaves the sleep of the others alone. -/
theorem asleep_setPc (htaken : p.taken = (σ.pc x).taken)
    (hself : ∀ t, x = .task t → (Asleep (σ.setPc x p) t ↔ Asleep σ t)) (t : Tid) :
    Asleep (σ.setPc x p) t ↔ Asleep σ t := by
  by_cases hx : x = .task t
  · exact hself t hx
  · have hne : Ctx.task t ≠ x := fun e => hx e.symm
    refine Asleep.congr ?_ ?_ rfl rfl (fun y => by rw [σ.view_setPc Pc.taken htaken])
    · rw [σ.setPc_of_ne hne]
    · rw [σ.setPc_of_ne hne]

theorem not_asleep_setPc (hd : p.dozesOn = none) (hs : p.sleepsOn = none) :
    ¬ Asleep (σ.setPc (.task t) p) t := by
  unfold Asleep
  rw [State.setPc_self, hd, hs]
  simp

variable {σ' : State S C} (h : WakeInv σ)
include h

theorem WakeInv.task_of_blocks (hx : (σ.pc x).blocks = true) : ∃ t, x = .task t := by
  by_contra hne
  have := h.handlers x (fun t e => hne ⟨t, e⟩)
  rw [hx] at this; cases this

theorem WakeInv.task_of_downOn (hx : (σ.pc x).downOn = some s) : ∃ t, x = .task t := by
  refine h.task_of_blocks ?_
  cases hp : σ.pc x <;> rw [hp] at hx <;> simp_all [Pc.downOn, Pc.blocks]

/-- A context that makes a blocking call is a task. -/
theorem WakeInv.task_of_call {op : Call S C} (hx : σ.cur = some x) (hop : op.blocks = true)
    (hk : σ.handler x = none ∨ ∃ rest, σ.handler x = some (op :: rest)) : ∃ t, x = .task t := by
  rcases hk with hk | ⟨rest, hk⟩
  · exact State.handler_of_cur hx hk
  · have := h.calls x _ hk op mem_cons_self
    rw [hop] at this; cases this

theorem WakeInv.frame (sem : S → Semaphore) (cond : C → CondVar) (g : Ghost S) :
    WakeInv { σ with sem := sem, cond := cond, ghost := g } :=
  { h with }

/-- One context moves; where the tasks that are asleep are has to be said anew. -/
theorem WakeInv.move (hpc : σ'.pc = update σ.pc x p)
    (hasleep : ∀ t, σ'.taskState t = .Sleeping ↔ Asleep σ' t)
    (hsem : ∀ y, y ≠ x → σ.semWaiter.up y = true → σ'.semWaiter.up y = true)
    (hcond : ∀ y, y ≠ x → σ.condWaiter.up y = true → σ'.condWaiter.up y = true)
    (hdown : ∀ s r, p = .downWoken s r → σ'.semWaiter.up x = true)
    (hwait : ∀ c m, p = .waitWoken c m → σ'.condWaiter.up x = true)
    (hactive : ∀ t, σ'.active = some t → σ'.taskState t = .Sleeping → p.isSaved = false ∧
      (.task t ≠ x → σ.active = some t ∧ σ.taskState t = .Sleeping))
    (hblocks : (∀ t, x ≠ .task t) → p.blocks = false) (hhandler : σ'.handler = σ.handler) :
    WakeInv σ' := by
  have hother : ∀ y, y ≠ x → σ'.pc y = σ.pc y := fun y hy => by rw [hpc, update_of_ne hy]
  have hat : σ'.pc x = p := by rw [hpc, update_self]
  refine ⟨hasleep, fun y s r hy => ?_, fun y c m hy => ?_, fun t ha hs ht => ?_, fun y hy => ?_,
    by rw [hhandler]; exact h.calls, by rw [hhandler]; exact h.tasks⟩
  · by_cases hyx : y = x
    · subst hyx
      exact hdown s r (hat.symm.trans hy)
    · rw [hother y hyx] at hy
      exact hsem y hyx (h.semWoken y s r hy)
  · by_cases hyx : y = x
    · subst hyx
      exact hwait c m (hat.symm.trans hy)
    · rw [hother y hyx] at hy
      exact hcond y hyx (h.condWoken y c m hy)
  · obtain ⟨hsaved, hold⟩ := hactive t ha ht
    by_cases hx : Ctx.task t = x
    · rw [hx, hat, hsaved] at hs; cases hs
    · obtain ⟨ha, ht⟩ := hold hx
      rw [hother _ hx] at hs
      exact h.active t ha hs ht
  · by_cases hyx : y = x
    · subst hyx
      rw [hat]; exact hblocks hy
    · rw [hother y hyx]; exact h.handlers y hy

/-- A step in which `x` moves on and no task changes its state. -/
theorem WakeInv.setPc (hasleep : ∀ t, Asleep (σ.setPc x p) t ↔ Asleep σ t)
    (hdown : ∀ s r, p = .downWoken s r → σ.semWaiter.up x = true)
    (hwait : ∀ c m, p = .waitWoken c m → σ.condWaiter.up x = true)
    (hsaved : p.isSaved = false) (hblocks : (∀ t, x ≠ .task t) → p.blocks = false) :
    WakeInv (σ.setPc x p) :=
  h.move rfl (fun t => (h.asleep t).trans (hasleep t).symm) (fun _ _ hu => hu) (fun _ _ hu => hu)
    hdown hwait (fun _ ha ht => ⟨hsaved, fun _ => ⟨ha, ht⟩⟩) hblocks rfl

theorem WakeInv.goOn (hn : ¬ Asleep σ t)
    (hd : p.dozesOn = none) (hs : p.sleepsOn = none) (htaken : p.taken = (σ.pc (.task t)).taken)
    (hdown : ∀ s r, p = .downWoken s r → σ.semWaiter.up (.task t) = true)
    (hwait : ∀ c m, p = .waitWoken c m → σ.condWaiter.up (.task t) = true)
    (hsaved : p.isSaved = false) : WakeInv (σ.setPc (.task t) p) := by
  refine h.setPc (asleep_setPc htaken fun t' ht' => ?_) hdown hwait hsaved (fun hne => ?_)
  · obtain rfl : t = t' := Ctx.task.inj ht'
    exact iff_of_false (not_asleep_setPc hd hs) hn
  · exact absurd rfl (hne t)

theorem WakeInv.goToSleep (hstate : σ'.taskState = update σ.taskState t .Sleeping)
    (hsem : ∀ y, y ≠ .task t → σ'.semWaiter.up y = σ.semWaiter.up y)
    (hcond : ∀ y, y ≠ .task t → σ'.condWaiter.up y = σ.condWaiter.up y)
    (hactive : σ'.active = σ.active) (hhandler : σ'.handler = σ.handler)
    (hpc : σ'.pc = update σ.pc (.task t) p)
    (hfrom : (σ.pc (.task t)).taken = []) (hto : p.taken = []) (hp : p.goesToSleep = true)
    (hself : Asleep σ' t) : WakeInv σ' := by
  have hother : ∀ y, y ≠ .task t → σ'.pc y = σ.pc y := fun y hy => by
    rw [hpc, update_of_ne hy]
  have htaken : ∀ y, (σ'.pc y).taken = (σ.pc y).taken := fun y => by
    rw [hpc]; exact σ.view_setPc Pc.taken (hto.trans hfrom.symm) y
  refine h.move hpc (fun t' => ?_) (fun y hy hu => (hsem y hy).trans hu)
    (fun y hy hu => (hcond y hy).trans hu) ?_ ?_ (fun t' ha ht => ⟨?_, fun hne => ?_⟩)
    (fun hne => absurd rfl (hne t)) hhandler
  · rw [hstate]
    by_cases ht : t' = t
    · subst ht; rw [update_self]; exact iff_of_true rfl hself
    · have hne : Ctx.task t' ≠ .task t := fun e => ht (Ctx.task.inj e)
      rw [update_of_ne ht, h.asleep]
      refine (Asleep.congr ?_ ?_ (hsem _ hne) (hcond _ hne) (fun y => by rw [htaken])).symm <;>
        rw [hother _ hne]
  · rintro s r rfl; cases hp
  · rintro c m rfl; cases hp
  · cases p <;> simp_all [Pc.isSaved, Pc.goesToSleep]
  · rw [hstate, update_of_ne (fun e => hne (congrArg _ e))] at ht
    exact ⟨hactive ▸ ha, ht⟩

/-- A sleeping task is switched away from, in favour of a runnable one. -/
theorem WakeInv.save {next : Option Tid}
    (hd : p.dozesOn = (σ.pc (.task t)).dozesOn) (hs : p.sleepsOn = (σ.pc (.task t)).sleepsOn)
    (hfrom : (σ.pc (.task t)).taken = []) (hto : p.taken = []) (hp : p.isSaved = true)
    (hnext : ∀ t', next = some t' → σ.taskState t' = .Runnable) :
    WakeInv { σ.setPc (.task t) p with active := next } := by
  have htaken := σ.view_setPc Pc.taken (hto.trans hfrom.symm)
  have key : ∀ t', Asleep (σ.setPc (.task t) p) t' ↔ Asleep σ t' := fun t' =>
    Asleep.congr (σ.view_setPc _ hd _) (σ.view_setPc _ hs _) rfl rfl (fun y => by rw [htaken])
  refine h.move rfl (fun t' => (h.asleep t').trans (key t').symm) (fun _ _ hu => hu)
    (fun _ _ hu => hu) ?_ ?_ (fun t' ha ht => ?_) (fun hne => absurd rfl (hne t)) rfl
  · rintro s r rfl; cases hp
  · rintro c m rfl; cases hp
  · have hr := hnext t' ha
    rw [show σ.taskState t' = .Sleeping from ht] at hr; cases hr

/-- Switching to a runnable task, and what a handler still has to do, changes nobody's
sleep. -/
theorem WakeInv.reschedule {n : Option Tid}
    {k : Ctx → Option (List (Call S C))}
    (hcalls : ∀ y ops, k y = some ops → ∀ op ∈ ops, op.blocks = false)
    (htasks : ∀ t, k (.task t) = none)
    (hnext : ∀ t, n = some t → σ.active = some t ∨ σ.taskState t = .Runnable) :
    WakeInv { σ with active := n, handler := k } := by
  refine { h with active := fun t ht hs => ?_, calls := hcalls, tasks := htasks }
  rcases hnext t ht with ha | hr
  · exact h.active t ha hs
  · rw [hr]; simp

/-- A notifier takes waiters off a list: they were asleep and still are. -/
theorem WakeInv.take (hp : σ.pc x = .run)
    (hws : ∀ w ∈ ws, (σ.pc w).sleepsOn ≠ none ∧ σ.condWaiter.up w = false) :
    WakeInv (σ.setPc x (.notifying ws)) := by
  refine h.setPc (fun t => ?_) (fun _ _ e => absurd e Pc.notifying_ne_downWoken)
    (fun _ _ e => absurd e Pc.notifying_ne_waitWoken) (by simp) (by simp)
  have hs := σ.view_setPc Pc.sleepsOn ((Pc.sleepsOn_notifying ws).trans
    (by rw [hp]; rfl)) (.task t)
  by_cases htw : Ctx.task t ∈ ws
  · obtain ⟨h1, h2⟩ := hws _ htw
    exact iff_of_true (Or.inr ⟨by rw [hs]; exact h1, Or.inl h2⟩) (Or.inr ⟨h1, Or.inl h2⟩)
  · refine Asleep.congr (σ.view_setPc _ ((Pc.dozesOn_notifying ws).trans (by rw [hp]; rfl)) _) hs
      rfl rfl (fun y => ?_)
    by_cases hy : y = x
    · subst hy
      rw [State.setPc_self, hp, Pc.taken_notifying]
      exact iff_of_false htw (by simp [Pc.taken, Pc.waking, Pc.toNotify])
    · rw [σ.setPc_of_ne hy]

/-- A notifier sets `up`: the waiter is still to be woken. -/
theorem WakeInv.setUp (hp : σ.pc x = .notify (w :: ws)) :
    WakeInv ((setUp σ w).setPc x (.notifyWake w ws)) := by
  have hview : ∀ {α : Type} (f : Pc S C → α), f (.notifyWake w ws) = f (.notify (w :: ws)) →
      ∀ y, f (((Sync.setUp σ w).setPc x (.notifyWake w ws)).pc y) = f (σ.pc y) := fun f hf y =>
    (Sync.setUp σ w).view_setPc f (hf.trans (by rw [← hp]; rfl)) y
  refine h.move rfl (fun t => (h.asleep t).trans ?_) (fun _ _ hu => hu)
    (fun y _ hu => ?_) nofun nofun (fun _ ha ht => ⟨rfl, fun _ => ⟨ha, ht⟩⟩) (fun _ => rfl) rfl
  · by_cases htw : Ctx.task t = w
    · have hin : Ctx.task t ∈ (σ.pc x).taken := by rw [hp, htw]; exact mem_cons_self
      unfold Asleep
      rw [hview Pc.dozesOn rfl, hview Pc.sleepsOn rfl]
      refine or_congr Iff.rfl (and_congr_right fun _ => ?_)
      exact iff_of_true (Or.inr ⟨x, hin⟩) (Or.inr ⟨x, by rw [hview Pc.taken rfl]; exact hin⟩)
    · refine (Asleep.congr (hview _ rfl _) (hview _ rfl _) rfl ?_
        (fun y => by rw [hview Pc.taken rfl])).symm
      exact update_of_ne htw ..
  · show update σ.condWaiter.up w true y = true
    by_cases hyw : y = w
    · rw [hyw, update_self]
    · rw [update_of_ne hyw]; exact hu

theorem WakeInv.wake {list : C → List Ctx} (hl : ListInv list σ)
    (hp : σ.pc x = .notifyWake w ws) (ht : w.tid = some t) :
    WakeInv ((wakeUpTask σ t).setPc x (.notifying ws)) := by
  have hin : w ∈ (σ.pc x).taken := by rw [hp]; exact mem_cons_self
  obtain ⟨c, hc⟩ := hl.taken w x hin
  obtain ⟨u, rfl⟩ := h.task_of_blocks (show (σ.pc w).blocks = true by
    cases hq : σ.pc w <;> rw [hq] at hc <;> simp_all [Pc.sleepsOn, Pc.blocks])
  obtain rfl : t = u := (Option.some.inj ht).symm
  have hup : σ.condWaiter.up (.task t) = true := hl.up _ x (by rw [hp]; rfl)
  have hnd : Ctx.task t ∉ ws := by
    have := hl.taken_nodup x
    rw [hp] at this
    exact (nodup_cons.mp this).1
  have hdoze : (σ.pc (.task t)).dozesOn = none := by
    cases hq : σ.pc (.task t) <;> rw [hq] at hc <;> simp_all [Pc.sleepsOn, Pc.dozesOn]
  obtain ⟨σ1, hσ1⟩ : ∃ σ1, σ1 = (wakeUpTask σ t).setPc x (.notifying ws) := ⟨_, rfl⟩
  have hother : ∀ y, y ≠ x → σ1.pc y = σ.pc y := fun y hy => by
    rw [hσ1]; exact State.setPc_of_ne _ hy _
  have hat : (σ1.pc x).taken = ws := by rw [hσ1, State.setPc_self, Pc.taken_notifying]
  have hstate : σ1.taskState = update σ.taskState t .Runnable := by rw [hσ1]; rfl
  have hd : ∀ y, (σ1.pc y).dozesOn = (σ.pc y).dozesOn := fun y => by
    rw [hσ1]
    exact (wakeUpTask σ t).view_setPc _ ((Pc.dozesOn_notifying ws).trans
      (show none = (σ.pc x).dozesOn by rw [hp]; rfl)) y
  have hs : ∀ y, (σ1.pc y).sleepsOn = (σ.pc y).sleepsOn := fun y => by
    rw [hσ1]
    exact (wakeUpTask σ t).view_setPc _ ((Pc.sleepsOn_notifying ws).trans
      (show none = (σ.pc x).sleepsOn by rw [hp]; rfl)) y
  have hsame : σ1.semWaiter = σ.semWaiter ∧ σ1.condWaiter = σ.condWaiter := by
    rw [hσ1]; exact ⟨rfl, rfl⟩
  rw [← hσ1]
  refine h.move (by rw [hσ1]; rfl) (fun t' => ?_) (fun y _ => ?_)
    (fun y _ => ?_) (fun _ _ e => absurd e Pc.notifying_ne_downWoken)
    (fun _ _ e => absurd e Pc.notifying_ne_waitWoken) (fun t' ha ht' => ⟨by simp, fun _ => ?_⟩)
    (by simp) (by rw [hσ1]; rfl)
  · rw [hstate]
    by_cases htt : t' = t
    · subst htt
      refine iff_of_false (by simp) ?_
      unfold Asleep
      rw [hd, hdoze, hsame.2, hup]
      rintro (⟨h1, _⟩ | ⟨_, h2 | ⟨y, hy⟩⟩)
      · exact h1 rfl
      · cases h2
      · -- nobody else has taken it
        by_cases hyx : y = x
        · subst hyx
          rw [hat] at hy
          exact hnd hy
        · rw [hother y hyx] at hy
          exact hyx (hl.taken_once _ y x hy hin)
    · have hne : Ctx.task t' ≠ .task t := fun e => htt (Ctx.task.inj e)
      rw [update_of_ne htt, h.asleep]
      refine (Asleep.congr (hd _) (hs _) (by rw [hsame.1]) (by rw [hsame.2]) (fun y => ?_)).symm
      by_cases hyx : y = x
      · subst hyx
        rw [hat, hp]
        exact (mem_cons.trans (or_iff_right hne)).symm
      · rw [hother y hyx]
  · rw [hsame.1]; exact id
  · rw [hsame.2]; exact id
  · rw [hstate] at ht'
    have htt : t' ≠ t := by
      rintro rfl
      rw [update_self] at ht'; cases ht'
    rw [update_of_ne htt] at ht'
    rw [hσ1] at ha
    exact ⟨ha, ht'⟩

variable [DecidableEq S]

/-- An `up` wakes the first waiter of its semaphore. -/
theorem WakeInv.handOver (hw : (σ.pc w).downOn = some s) (ht : w.tid = some t) :
    WakeInv (handOver σ x s w t) := by
  obtain ⟨u, rfl⟩ := h.task_of_downOn hw
  obtain rfl : t = u := (Option.some.inj ht).symm
  refine { h with
    asleep := fun t' => ?_, semWoken := fun y s' r hy => ?_, active := fun t' ha hs => ?_ }
  · by_cases htt : t' = t
    · subst htt
      have hns := Pc.sleepsOn_of_downOn hw
      simp [Sync.handOver, wakeUpTask, Asleep, hns]
    · have hne : Ctx.task t' ≠ .task t := fun e => htt (Ctx.task.inj e)
      have key : Asleep (Sync.handOver σ x s (.task t) t) t' ↔ Asleep σ t' :=
        Asleep.congr rfl rfl (update_of_ne hne ..) rfl (fun _ => Iff.rfl)
      simp only [Sync.handOver, wakeUpTask, update_of_ne htt]
      exact (h.asleep t').trans key.symm
  · by_cases hyt : y = .task t
    · rw [hyt]; exact update_self ..
    · exact (update_of_ne hyt ..).trans (h.semWoken y s' r hy)
  · by_cases htt : t' = t
    · subst htt; simp [Sync.handOver, wakeUpTask]
    · simpa [Sync.handOver, wakeUpTask, update_of_ne htt] using h.active t' ha hs

theorem WakeInv.up {waiting pending : S → List Ctx}
    (hi : SemInv waiting pending σ) (e : up σ x s = some σ') : WakeInv σ' := by
  obtain ⟨_, rfl⟩ | ⟨w, t, hf, ht, rfl⟩ := up_cases e
  · exact h.frame _ _ _
  · obtain ⟨l, hl⟩ := (hi.threads s).of_first hf
    obtain ⟨hw, _⟩ := (hi.mem_waiting s w).mp (by rw [hl]; exact mem_cons_self)
    exact h.handOver hw ht

/-- An `up` by a context that has just declared itself asleep does what it would have done
before, since the caller is not among the waiters it can wake. -/
theorem up_of_asleep {waiting pending : S → List Ctx}
    (hi : SemInv waiting pending σ) (e : up σ1 (.task t) s = some σ')
    (hx : (σ.pc (.task t)).downOn = none) (hsem : σ1.sem = σ.sem)
    (hw : σ1.semWaiter = σ.semWaiter) (hstate : σ1.taskState = update σ.taskState t .Sleeping) :
    ∃ σ0, up σ (.task t) s = some σ0 ∧ σ'.taskState = update σ0.taskState t .Sleeping
      ∧ σ'.semWaiter.up = σ0.semWaiter.up ∧ σ'.cond = σ1.cond ∧ σ'.condWaiter = σ1.condWaiter
      ∧ σ'.active = σ1.active ∧ σ'.handler = σ1.handler ∧ σ'.pc = σ1.pc
      ∧ σ0.cond = σ.cond ∧ σ0.condWaiter = σ.condWaiter ∧ σ0.active = σ.active
      ∧ σ0.handler = σ.handler ∧ σ0.pc = σ.pc := by
  unfold up at e ⊢
  rw [hsem] at e
  cases hf : (σ.sem s).waiters.first with
  | none =>
    rw [hf] at e
    obtain ⟨hl, e⟩ := of_assert e
    cases e
    refine ⟨giveBack σ (.task t) s, assert_bind_eq_some.mpr ⟨hl, rfl⟩, hstate, ?_, rfl, rfl, rfl,
      rfl, rfl, rfl, rfl, rfl, rfl, rfl⟩
    show σ1.semWaiter.up = _
    rw [hw]; rfl
  | some w =>
    rw [hf] at e
    obtain ⟨hl, e⟩ := of_assert e
    obtain ⟨u, hu, e⟩ := of_bind e
    cases e
    refine ⟨handOver σ (.task t) s w u, ?_, ?_, ?_, rfl, rfl, rfl, rfl, rfl, rfl, rfl, rfl, rfl,
      rfl⟩
    · exact assert_bind_eq_some.mpr ⟨hl, bind_eq_some_iff.mpr ⟨u, hu, rfl⟩⟩
    · obtain ⟨l, hl⟩ := (hi.threads s).of_first hf
      obtain ⟨hwd, _⟩ := (hi.mem_waiting s w).mp (by rw [hl]; exact mem_cons_self)
      obtain ⟨v, rfl⟩ := h.task_of_downOn hwd
      obtain rfl : u = v := (Option.some.inj hu).symm
      have hne : u ≠ t := by
        rintro rfl
        rw [hx] at hwd; cases hwd
      show update σ1.taskState u .Runnable = update (update σ.taskState u .Runnable) t .Sleeping
      rw [hstate, update_comm hne]
    · show update σ1.semWaiter.up w true = _
      rw [hw]; rfl

end Flix.Sync

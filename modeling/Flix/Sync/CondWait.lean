import Flix.Sync.Mutex

/-!
# Waiting on a condition variable

`CondVar::wait` is meant to release the caller's mutex once and take it again
once. Its loop is prepared for spurious wake-ups, and its comment says that the
mutex is relocked only when the condition has triggered; but the *un*lock is
inside the loop. A wake-up is spurious when `putMeToSleep` returns while the
waiter is not up, which is what happens when an interrupt handler, running on
the task between the unlock and `putMeToSleep`, blocks on a mutex itself and is
woken.

As long as there is none, every `wait` makes one `up` and one `down` on its
mutex, and the mutex has one holder (`wait_balanced`). With one, two tasks hold
it at once (`spurious_wakeup_two_holders`).
-/

namespace Flix.Sync

open Function Fifo Runs

variable {S C : Type} [DecidableEq S]

/-! ## One `up` and one `down` -/

/-- How many `up`s and `down`s on `m` a `wait` on it should have made at this place. -/
def Pc.waitCounts (m : S) : Pc S C → Option (Nat × Nat)
  | .waitSleep _ m' => if m' = m then some (1, 0) else none
  | .waitSaved _ m' => if m' = m then some (1, 0) else none
  | .waitWoken _ m' => if m' = m then some (1, 0) else none
  | .waitLock m' => if m' = m then some (1, 0) else none
  | .downSleep s true => if s = m then some (1, 1) else none
  | .downSaved s true => if s = m then some (1, 1) else none
  | .downWoken s true => if s = m then some (1, 1) else none
  | _ => none

/-- Every `wait` on `m` has made the calls it should have, and made one of each when it
returned. -/
structure WaitInv (m : S) (σ : State S C) : Prop where
  running : ∀ x, ∀ p ∈ (σ.pc x).waitCounts m, (σ.ghost.waitUps x, σ.ghost.waitDowns x) = p
  returned : ∀ e ∈ σ.ghost.waits, e.1 = m → e.2 = (1, 1)

/-- The mutex of the `wait` whose `putMeToSleep` has just returned. -/
def Pc.wokenFrom : Pc S C → Option S
  | .waitWoken _ m => some m
  | _ => none

/-- No wake-up out of a `wait` on `m` is spurious: when `putMeToSleep` has returned, the
waiter is up. -/
def NoSpurious (m : S) (σ : State S C) (_ : Action S C) : Prop :=
  ∀ x ∈ σ.cur, (σ.pc x).wokenFrom = some m → σ.condWaiter.up x = true

/-- The clients unlock `m`, and wait with it, only while they hold it. -/
def Disciplined (m : S) (σ : State S C) : Action S C → Prop
  | .call (.up s) => s = m → ∀ x ∈ σ.cur, x ∈ σ.ghost.held m
  | .call (.wait _ s) => s = m → ∀ x ∈ σ.cur, x ∈ σ.ghost.held m
  | _ => True

instance (m : S) (σ : State S C) (a : Action S C) : Decidable (NoSpurious m σ a) := by
  unfold NoSpurious; infer_instance

instance (m : S) (σ : State S C) : (a : Action S C) → Decidable (Disciplined m σ a)
  | .call (.up s) => inferInstanceAs (Decidable (s = m → ∀ x ∈ σ.cur, x ∈ σ.ghost.held m))
  | .call (.wait _ s) => inferInstanceAs (Decidable (s = m → ∀ x ∈ σ.cur, x ∈ σ.ghost.held m))
  | .call (.down _) => .isTrue trivial
  | .call (.notifyOne _) => .isTrue trivial
  | .call (.notifyAll _) => .isTrue trivial
  | .advance _ => .isTrue trivial
  | .timer _ => .isTrue trivial
  | .irq _ => .isTrue trivial

theorem Pc.waitCounts_notifying (m : S) (ws : List Ctx) :
    (Pc.notifying ws : Pc S C).waitCounts m = none := by
  unfold Pc.notifying; split <;> rfl

theorem Naps.waitCounts {p saved woken : Pc S C} (h : Naps p saved woken) (m : S) :
    woken.waitCounts m = p.waitCounts m ∧ p.waitCounts m = saved.waitCounts m := by
  cases h with
  | down s r => cases r <;> exact ⟨rfl, rfl⟩
  | wait c m' => exact ⟨rfl, rfl⟩

variable {m : S} {σ σ' τ : State S C} {x : Ctx}

/-- What one context does in a step leaves the `wait`s of all others alone. -/
theorem WaitInv.of_frame (h : WaitInv m σ) (hpc : ∀ y, y ≠ x → σ'.pc y = σ.pc y)
    (hups : ∀ y, y ≠ x → σ'.ghost.waitUps y = σ.ghost.waitUps y)
    (hdowns : ∀ y, y ≠ x → σ'.ghost.waitDowns y = σ.ghost.waitDowns y)
    (hx : ∀ p ∈ (σ'.pc x).waitCounts m, (σ'.ghost.waitUps x, σ'.ghost.waitDowns x) = p)
    (hw : ∀ e ∈ σ'.ghost.waits, e ∈ σ.ghost.waits ∨ (e.1 = m → e.2 = (1, 1))) : WaitInv m σ' where
  running y := by
    by_cases hy : y = x
    · subst hy; exact hx
    · rw [hpc y hy, hups y hy, hdowns y hy]; exact h.running y
  returned e he hem := by
    rcases hw e he with h' | h'
    · exact h.returned e h' hem
    · exact h' hem

/-- Moving to a place with the same counts, or outside every `wait`. -/
theorem WaitInv.setPc {p : Pc S C} (h : WaitInv m σ)
    (hpc : τ.pc = σ.pc) (hups : τ.ghost.waitUps = σ.ghost.waitUps)
    (hdowns : τ.ghost.waitDowns = σ.ghost.waitDowns) (hwaits : τ.ghost.waits = σ.ghost.waits)
    (hp : p.waitCounts m = none ∨ p.waitCounts m = (σ.pc x).waitCounts m) :
    WaitInv m (τ.setPc x p) := by
  refine h.of_frame (x := x) (fun y hy => ?_) (fun y _ => ?_) (fun y _ => ?_) ?_ ?_
  · rw [State.setPc_of_ne _ hy, hpc]
  · exact congrFun hups y
  · exact congrFun hdowns y
  · intro q hq
    rw [State.setPc_self] at hq
    show (τ.ghost.waitUps x, τ.ghost.waitDowns x) = q
    rw [hups, hdowns]
    rcases hp with hp | hp
    · rw [hp] at hq; cases hq
    · rw [hp] at hq; exact h.running x q hq
  · intro e he
    exact Or.inl (hwaits ▸ he)

theorem up_wait {s : S} (h : up σ x s = some σ') :
    σ'.ghost.waitUps = σ.ghost.waitUps ∧ σ'.ghost.waitDowns = σ.ghost.waitDowns
      ∧ σ'.ghost.waits = σ.ghost.waits := by
  obtain ⟨_, rfl⟩ | ⟨w, t, _, _, rfl⟩ := up_cases h <;> exact ⟨rfl, rfl, rfl⟩

/-- A `down` that is not the one of a `wait`, or is one on a mutex with the right counts. -/
theorem WaitInv.down {s : S} {r : Bool} (h : WaitInv m σ)
    (hpc : τ.pc = σ.pc) (hups : τ.ghost.waitUps = σ.ghost.waitUps)
    (hdowns : ∀ y, y ≠ x → τ.ghost.waitDowns y = σ.ghost.waitDowns y)
    (hwaits : τ.ghost.waits = σ.ghost.waits)
    (hr : r = true → s = m → τ.ghost.waitUps x = 1 ∧ τ.ghost.waitDowns x = 1)
    (e : down τ x s r = some σ') : WaitInv m σ' := by
  obtain ⟨_, rfl⟩ | ⟨t, _, _, rfl⟩ := down_cases e
  · refine h.of_frame (fun y hy => ?_) (fun y _ => congrFun hups y) hdowns ?_ ?_
    · simp [finishDown, takePermit, update_of_ne hy, hpc]
    · intro p hp
      simp [finishDown, Pc.waitCounts] at hp
    · intro w hw
      cases r with
      | false => exact Or.inl (by simpa [finishDown, takePermit, Ghost.return, Ghost.grant,
          Ghost.arrive, hwaits] using hw)
      | true =>
        rcases mem_cons.mp hw with rfl | hw
        · refine Or.inr (fun hs => ?_)
          obtain ⟨h1, h2⟩ := hr rfl hs
          exact Prod.ext h1 h2
        · exact Or.inl (hwaits ▸ hw)
  · refine h.of_frame (x := x) (fun y hy => ?_) (fun y _ => congrFun hups y) hdowns ?_ ?_
    · rw [State.setPc_of_ne _ hy]
      exact congrFun hpc y
    · intro p hp
      rw [State.setPc_self] at hp
      cases r with
      | false => cases hp
      | true =>
        simp only [Pc.waitCounts] at hp
        split at hp
        · cases hp
          obtain ⟨h1, h2⟩ := hr rfl ‹_›
          exact Prod.ext h1 h2
        · cases hp
    · intro w hw
      exact Or.inl (hwaits ▸ hw)

/-- A round of the loop. On `m` it is only made by a `wait` that has made no call yet. -/
theorem WaitInv.waitRound {m' : S} {c : C} (h : WaitInv m σ)
    (hpc : τ.pc = σ.pc) (hups : ∀ y, y ≠ x → τ.ghost.waitUps y = σ.ghost.waitUps y)
    (hdowns : ∀ y, y ≠ x → τ.ghost.waitDowns y = σ.ghost.waitDowns y)
    (hwaits : τ.ghost.waits = σ.ghost.waits)
    (hm : m' = m → τ.ghost.waitUps x = 0 ∧ τ.ghost.waitDowns x = 0)
    (e : waitRound τ x c m' = some σ') : WaitInv m σ' := by
  obtain ⟨t, σ2, _, hu, rfl⟩ := waitRound_inv e
  obtain ⟨h1, h2, h3⟩ := up_wait hu
  refine h.of_frame (x := x) (fun y hy => ?_) (fun y hy => ?_) (fun y hy => ?_) ?_ ?_
  · rw [State.setPc_of_ne _ hy, up_pc hu]
    exact congrFun hpc y
  · show σ2.ghost.waitUps y = _
    rw [h1, ← hups y hy]
    exact update_of_ne hy ..
  · show σ2.ghost.waitDowns y = _
    rw [h2]
    exact hdowns y hy
  · intro p hp
    rw [State.setPc_self] at hp
    simp only [Pc.waitCounts] at hp
    split at hp
    · cases hp
      obtain ⟨hz, hz'⟩ := hm ‹_›
      refine Prod.ext ?_ ?_
      · show σ2.ghost.waitUps x = 1
        rw [h1]
        simp [prepareMeForSleep, Ghost.waitUp, hz]
      · show σ2.ghost.waitDowns x = 0
        rw [h2]
        exact hz'
    · cases hp
  · intro w hw
    refine Or.inl ?_
    rw [← hwaits]
    exact h3 ▸ hw

variable [DecidableEq C]

theorem waitInv_call {op : Call S C} (h : WaitInv m σ)
    (hs : step σ (.call op) = some σ') : WaitInv m σ' := by
  obtain ⟨x, k, _, hp, _, hs⟩ := step_call_inv hs
  cases op with
  | down s =>
    exact h.down (τ := { σ with handler := k }) rfl rfl (fun _ _ => rfl) rfl
      (fun h => absurd h (by simp)) hs
  | up s =>
    obtain ⟨h1, h2, h3⟩ := up_wait hs
    refine h.of_frame (x := x) (fun y _ => ?_) (fun y _ => ?_) (fun y _ => ?_) ?_ ?_
    · rw [up_pc hs]
    · rw [h1]
    · rw [h2]
    · intro p hq
      rw [up_pc hs] at hq
      simp [hp, Pc.waitCounts] at hq
    · intro e he
      rw [h3] at he
      exact Or.inl he
  | wait c m' =>
    refine h.waitRound (τ := linkCond { σ with handler := k, ghost := σ.ghost.beginWait x } x c)
      rfl (fun y hy => ?_) (fun y hy => ?_) rfl (fun _ => ?_) (wait_inv hs)
    · exact update_of_ne hy ..
    · exact update_of_ne hy ..
    · exact ⟨update_self .., update_self ..⟩
  | notifyOne c =>
    obtain ⟨_, rfl⟩ | ⟨w, _, rfl⟩ := notifyOne_cases hs
    · exact ⟨h.running, h.returned⟩
    · exact h.setPc rfl rfl rfl rfl (Or.inl (Pc.waitCounts_notifying m _))
  | notifyAll c =>
    obtain ⟨ws, _, hs⟩ := of_bind hs
    cases hs
    exact h.setPc rfl rfl rfl rfl (Or.inl (Pc.waitCounts_notifying m _))

theorem waitInv_advance {next : Option Tid} (h : WaitInv m σ)
    (hok : NoSpurious m σ (.advance next)) (hs : step σ (.advance next) = some σ') :
    WaitInv m σ' := by
  obtain ⟨x, hx, hs⟩ := of_bind hs
  have hcounts := h.running x
  cases advance_cases hs with
  | leave n => exact ⟨h.running, h.returned⟩
  | save hn hp =>
    have h' := h.setPc rfl rfl rfl rfl (Or.inr (hp ▸ (hn.waitCounts m).2.symm))
    exact ⟨h'.running, h'.returned⟩
  | wake hn hp =>
    refine h.setPc rfl rfl rfl rfl (Or.inr ?_)
    obtain ⟨h1, h2⟩ := hn.waitCounts m
    rcases hp with hp | ⟨hp, _⟩ <;> rw [hp]
    · exact h1.trans h2
    · exact h1
  | finish s r hp =>
    rw [hp] at hcounts
    refine h.of_frame (x := x) (fun y hy => ?_) (fun _ _ => rfl) (fun _ _ => rfl) ?_ ?_
    · exact update_of_ne hy ..
    · intro p hq
      simp [finishDown, Pc.waitCounts] at hq
    · intro e he
      cases r with
      | false => exact Or.inl he
      | true =>
        rcases mem_cons.mp he with rfl | he
        · exact Or.inr (fun hsm => hcounts (1, 1) (if_pos hsm))
        · exact Or.inl he
  | again s r t hp => exact h.setPc rfl rfl rfl rfl (Or.inr (by rw [hp]; cases r <;> rfl))
  | trigger c m' hp => exact h.setPc rfl rfl rfl rfl (Or.inr (by rw [hp]; rfl))
  | round c m' hp hu e =>
    -- a second round: not on `m`
    refine h.waitRound rfl (fun _ _ => rfl) (fun _ _ => rfl) rfl (fun hm => ?_) e
    subst hm
    exact absurd (hok x hx (by rw [hp]; rfl)) hu
  | lock m' hp e =>
    rw [hp] at hcounts
    refine h.down (τ := { σ with ghost := σ.ghost.waitDown x }) rfl rfl
      (fun y hy => update_of_ne hy ..) rfl (fun _ hm => ?_) e
    have := Prod.ext_iff.mp (hcounts (1, 0) (by simp [Pc.waitCounts, hm]))
    exact ⟨this.1, by simp [Ghost.waitDown, show σ.ghost.waitDowns x = 0 from this.2]⟩
  | notified => exact h.setPc rfl rfl rfl rfl (Or.inl rfl)
  | setUp => exact h.setPc rfl rfl rfl rfl (Or.inl rfl)
  | wakeUp => exact h.setPc rfl rfl rfl rfl (Or.inl (Pc.waitCounts_notifying m _))

/-- Without a spurious wake-up, every step keeps the counts. -/
theorem waitInv_step {a : Action S C} (h : WaitInv m σ)
    (hok : NoSpurious m σ a) (hs : step σ a = some σ') : WaitInv m σ' := by
  cases a with
  | call op => exact waitInv_call h hs
  | advance next => exact waitInv_advance h hok hs
  | timer next =>
    obtain ⟨_, hs⟩ := of_assert hs
    rw [(scheduleNext_eq hs).1]
    exact ⟨h.running, h.returned⟩
  | irq calls =>
    obtain ⟨_, hs⟩ := of_assert hs
    cases hs
    exact ⟨h.running, h.returned⟩

omit [DecidableEq S] [DecidableEq C] in
/-- A disciplined client unlocks only what it holds, and so does `wait` if it goes round
its loop only once. -/
theorem Disciplined.holderUnlocks {a : Action S C}
    (hd : Disciplined m σ a) (hn : NoSpurious m σ a) : HolderUnlocks m σ a := by
  have hcur : ∀ {s : S} {p : Ctx × S}, (s = m → ∀ x ∈ σ.cur, x ∈ σ.ghost.held m) →
      p ∈ σ.cur.map (·, s) → p.2 = m → p.1 ∈ σ.ghost.held m := by
    rintro s p hheld hp hpm
    obtain ⟨x, hx, rfl⟩ := map_eq_some_iff.mp hp
    exact hheld hpm x hx
  intro p hp hpm
  cases a with
  | call op =>
    cases op with
    | up s => exact hcur hd hp hpm
    | wait c s => exact hcur hd hp hpm
    | down s => cases hp
    | notifyOne c => cases hp
    | notifyAll c => cases hp
  | advance next =>
    obtain ⟨x, hx, hp⟩ := of_bind hp
    split at hp
    · rename_i c m' hpc
      split at hp
      · cases hp
      · cases hp
        have hm : m' = m := hpm
        subst hm
        exact absurd (hn x hx (by rw [hpc]; rfl)) ‹_›
    · cases hp
  | timer next => cases hp
  | irq calls => cases hp

/--
**`wait` releases and retakes its mutex once.** In every run of disciplined
clients without a spurious wake-up out of a `wait` on `m`, each such `wait` that
has returned made one `up` and one `down` on `m`; the count of `m` and its
holders add up to 1; and two contexts never hold it.
-/
theorem wait_balanced (n : S → Nat) (garbage : C → Nat) (tasks : List Tid) (m : S)
    (hm : n m = 1) (σ : State S C)
    (hr : Reach step (fun σ a => Disciplined m σ a ∧ NoSpurious m σ a) (init n garbage tasks) σ) :
    (∀ e ∈ σ.ghost.waits, e.1 = m → e.2 = (1, 1))
      ∧ (σ.sem m).count + (σ.ghost.held m).length = 1
      ∧ ∀ x y, x ∈ σ.ghost.held m → y ∈ σ.ghost.held m → x = y := by
  have hwait : WaitInv m σ := by
    refine hr.invariant ⟨?_, ?_⟩ (fun σ a σ' hi hok hs => waitInv_step hi hok.2 hs)
    · intro x p hp
      simp [init, Pc.waitCounts] at hp
    · intro e he
      simp [init] at he
  have hone : OneHolder m σ := by
    refine hr.invariant ?_
      (fun σ a σ' hi hok hs => oneHolder_step hi (hok.1.holderUnlocks hok.2) hs)
    simpa [OneHolder, init] using hm
  exact ⟨hwait.returned, hone, fun x y => hone.unique⟩

/-! ## The runs -/

/-- A mutex used with a condition variable, and the mutex of the terminal. -/
inductive Lock where
  | m
  | tty
  deriving DecidableEq

/-- Tasks 1 and 2 pass the mutex through the condition variable. -/
def notifiedRun : List (Action Lock Unit) :=
  [.timer (some 1), .call (.down .m), .call (.wait () .m), .advance (some 2),
    .call (.down .m), .call (.notifyOne ()), .advance none, .advance none, .call (.up .m),
    .timer (some 1), .advance none, .advance none, .advance none]

theorem wait_balanced_notifiedRun :
    ∃ σ : State Lock Unit,
      Reach step (fun σ a => Disciplined .m σ a ∧ NoSpurious .m σ a)
        (init (fun _ => 1) (fun _ => 0) [1, 2]) σ
      ∧ σ.ghost.waits = [(.m, 1, 1)] ∧ (σ.sem .m).count + (σ.ghost.held .m).length = 1 := by
  have hrun : (guardedRun step (fun σ a => Disciplined .m σ a ∧ NoSpurious .m σ a)
      (init (fun _ => 1) (fun _ => 0) [1, 2] : State Lock Unit) notifiedRun).map
        (fun σ => σ.ghost.waits) = some [(.m, 1, 1)] := by decide
  obtain ⟨σ, hσ, hwaits⟩ := map_eq_some_iff.mp hrun
  have hr := Reach.of_guardedRun hσ
  exact ⟨σ, hr, hwaits, (wait_balanced _ _ _ .m rfl σ hr).2.1⟩

/-- Task 1 waits with `m` while task 2 holds the terminal. A key is pressed before task 1
reaches `putMeToSleep`; the handler blocks on the terminal and is woken by task 2, so task 1
is runnable when it gets to `putMeToSleep`, goes round the loop and unlocks `m` again. -/
def spuriousRun : List (Action Lock Unit) :=
  [.timer (some 1), .timer (some 2), .call (.down .tty), .timer (some 3), .timer (some 1),
    .call (.down .m), .call (.wait () .m),
    -- the handler, on task 1
    .irq [.down .tty, .up .tty], .call (.down .tty), .advance (some 2),
    .call (.up .tty), .timer (some 3), .timer (some 1),
    .advance none, .advance none, .call (.up .tty), .advance none,
    -- back in task 1: `putMeToSleep` returns at once
    .advance none, .advance none, .advance (some 2),
    .call (.down .m), .timer (some 3), .call (.down .m)]

/-- **A spurious wake-up makes two holders**: one `wait` has made two `up`s, and tasks 2
and 3 are both inside the mutex. -/
theorem spurious_wakeup_two_holders :
    ∃ σ : State Lock Unit,
      Reach step (Disciplined .m) (init (fun _ => 1) (fun _ => 0) [1, 2, 3]) σ
      ∧ σ.pc (.task 1) = .waitSaved () .m ∧ σ.ghost.waitUps (.task 1) = 2
      ∧ (σ.sem .m).count + (σ.ghost.held .m).length = 2
      ∧ Inside σ .m (.task 2) ∧ Inside σ .m (.task 3) := by
  have hrun : (guardedRun step (Disciplined .m)
      (init (fun _ => 1) (fun _ => 0) [1, 2, 3] : State Lock Unit) spuriousRun).map
        (fun σ => decide (σ.pc (.task 1) = .waitSaved () .m ∧ σ.ghost.waitUps (.task 1) = 2
          ∧ (σ.sem .m).count = 0 ∧ σ.ghost.held .m = [.task 3, .task 2]
          ∧ σ.pc (.task 2) = .run ∧ σ.pc (.task 3) = .run)) = some true := by decide
  obtain ⟨σ, hσ, hv⟩ := map_eq_some_iff.mp hrun
  obtain ⟨h1, h2, h3, h4, h5, h6⟩ := of_decide_eq_true hv
  refine ⟨σ, Reach.of_guardedRun hσ, h1, h2, by rw [h3, h4]; rfl, ⟨?_, ?_⟩, ⟨?_, ?_⟩⟩
  · rw [h4]; simp
  · rw [h5]; simp
  · rw [h4]; simp
  · rw [h6]; simp

end Flix.Sync

import Flix.Sync.NoLostWakeUp
import Mathlib.Data.List.Perm.Subperm

/-!
# The waiter counts

`CondVar` keeps the length of its waiter list in `_waiterCount`. Every step of
the machine keeps the two in agreement, from whatever state they agree in: a
`wait` adds one to both, `notify_one` takes one off both and `notify_all` clears
both. They agree after construction only if `_waiterCount`, which has no
initialiser, happens to be zero.

`call_effect` and `advance_effect` say what a step does to the lists and to the
places of the contexts, and `Counts.step` is read off them.
-/

namespace Flix.Sync

open Function Fifo Runs

variable {S C : Type}

/-! ## What a step does to the lists -/

/-- The two states have the same waiter lists and counters. -/
structure SameLists (σ σ' : State S C) : Prop where
  cond : σ'.cond = σ.cond
  next : σ'.condWaiter.next = σ.condWaiter.next

/-- Between the two states the context `x` has gone to `p` and nobody else has moved. -/
structure Moves (σ σ' : State S C) (x : Ctx) (p : Pc S C) : Prop where
  pc : σ'.pc = update σ.pc x p
  tasks : σ'.tasks = σ.tasks
  active : ∀ t, σ'.active = some t → σ.active = some t ∨ t ∈ σ.tasks

variable {σ σ' σ₁ : State S C} {x : Ctx} {p : Pc S C}

theorem Moves.setPc (hpc : σ₁.pc = σ.pc) (ht : σ₁.tasks = σ.tasks) (ha : σ₁.active = σ.active) :
    Moves σ (σ₁.setPc x p) x p :=
  ⟨by rw [← hpc]; rfl, ht, fun _ h => Or.inl (ha ▸ h)⟩

theorem Moves.of_ne (h : Moves σ σ' x p) {y : Ctx} (hy : y ≠ x) : σ'.pc y = σ.pc y := by
  rw [h.pc, update_of_ne hy]

theorem Moves.self (h : Moves σ σ' x p) : σ'.pc x = p := by
  rw [h.pc, update_self]

variable {next : Option Tid} {c : C} {a : Action S C}

/-! ## The lists and the counters -/

/-- Only tasks there are run, or are in the middle of a call. -/
structure Populated (σ : State S C) : Prop where
  active : ∀ t, σ.active = some t → t ∈ σ.tasks
  away : ∀ t, σ.pc (.task t) ≠ .run → t ∈ σ.tasks

/-- The invariants of the machine below, for the waiter lists `list`. Task identifiers are
`pid_t`s, so there are fewer tasks than `_waiterCount` can count. -/
structure ListBase (list : C → List Ctx) (σ : State S C) : Prop where
  sem : ∃ waiting pending, SemInv waiting pending σ
  lists : ListInv list σ
  wake : WakeInv σ
  populated : Populated σ
  few : σ.tasks.length < 2 ^ 32

variable {list list' : C → List Ctx}

theorem Populated.moves (h : Populated σ) (hx : σ.cur = some x) (hm : Moves σ σ' x p) :
    Populated σ' := by
  constructor
  · intro t ht
    rw [hm.tasks]
    exact (hm.active t ht).elim (h.active t) id
  · intro t ht
    rw [hm.tasks]
    by_cases hy : Ctx.task t = x
    · exact h.active t (by rw [State.cur_tid hx, ← hy]; rfl)
    · rw [hm.of_ne hy] at ht
      exact h.away t ht

theorem ListBase.task_of_sleepsOn (h : ListBase list σ) (hx : (σ.pc x).sleepsOn = some c) :
    ∃ t, x = .task t := by
  refine h.wake.task_of_blocks ?_
  cases hp : σ.pc x <;> rw [hp] at hx <;> simp_all [Pc.sleepsOn, Pc.blocks]

theorem ListBase.length_lt (h : ListBase list σ) (c : C) : (list c).length < 2 ^ 32 := by
  have hsub : list c ⊆ σ.tasks.map Ctx.task := by
    intro x hx
    have hs := (h.lists.listed c x hx).1
    obtain ⟨t, rfl⟩ := h.task_of_sleepsOn hs
    refine List.mem_map_of_mem (h.populated.away t (fun e => ?_))
    rw [e] at hs
    cases hs
  have hle := ((h.lists.threads c).nodup.subperm hsub).length_le
  rw [List.length_map] at hle
  exact Nat.lt_of_le_of_lt hle h.few

/-- Every `_waiterCount` is right. -/
def Counts (list : C → List Ctx) (σ : State S C) : Prop :=
  ∀ c, (σ.cond c).waiterCount = (list c).length

theorem lists_of_same (h : ListInv list σ) (h' : ListInv list' σ') (hs : SameLists σ σ') :
    list' = list := by
  funext c
  have hc := h.threads c
  rw [← hs.cond, ← hs.next] at hc
  exact (h'.threads c).unique hc

theorem Counts.of_same (h : Counts list σ) (hl : ListInv list σ) (hl' : ListInv list' σ')
    (hs : SameLists σ σ') : Counts list' σ' ∧ list' = list := by
  obtain rfl := lists_of_same hl hl' hs
  exact ⟨fun c => by rw [hs.cond]; exact h c, rfl⟩

section

variable [DecidableEq C]

theorem Counts.link (h : Counts list σ) (hl : ListInv list σ) (hb : ListBase list' σ')
    (hp : σ.pc x = .run) (hcond : σ'.cond = (linkCond σ x c).cond)
    (hnext : σ'.condWaiter.next = (linkCond σ x c).condWaiter.next) :
    Counts list' σ' ∧ list' = update list c (list c ++ [x]) := by
  have hx : ∀ c', x ∉ list c' := hl.not_listed (by rw [hp]; rfl)
  have hlist : list' = update list c (list c ++ [x]) := by
    funext c'
    refine (hb.lists.threads c').unique ?_
    rw [hcond, hnext]
    exact hl.threads_link hx c'
  refine ⟨fun c' => ?_, hlist⟩
  have hlt := hb.length_lt c'
  rw [hcond]
  rw [hlist] at hlt ⊢
  by_cases hc : c' = c
  · subst hc
    simp only [linkCond, update_self, length_append, List.length_singleton] at hlt ⊢
    rw [h c', Nat.mod_eq_of_lt hlt]
  · simp only [linkCond, update_of_ne hc]
    exact h c'

/-- One list is replaced, and its counter with it. -/
theorem Counts.replace (h : Counts list σ) (hl : ListInv list σ) (hl' : ListInv list' σ')
    {v : CondVar} {l : List Ctx} (hcond : σ'.cond = update σ.cond c v)
    (hnext : σ'.condWaiter.next = σ.condWaiter.next)
    (hv : Represents σ.condWaiter.next v.waiters l) (hcount : v.waiterCount = l.length) :
    Counts list' σ' ∧ list' = update list c l := by
  have hlist : list' = update list c l := by
    funext c'
    refine (hl'.threads c').unique ?_
    rw [hcond, hnext]
    by_cases hc : c' = c
    · subst hc
      rw [update_self, update_self]
      exact hv
    · rw [update_of_ne hc, update_of_ne hc]
      exact hl.threads c'
  refine ⟨fun c' => ?_, hlist⟩
  rw [hcond, hlist]
  by_cases hc : c' = c
  · subst hc
    rw [update_self, update_self, hcount]
  · rw [update_of_ne hc, update_of_ne hc]
    exact h c'

theorem Counts.unlink (h : Counts list σ) (hb : ListBase list σ) (hl' : ListInv list' σ')
    {w : Ctx} (hf : (σ.cond c).waiters.first = some w) (hcond : σ'.cond = (unlinkCond σ c).cond)
    (hnext : σ'.condWaiter.next = σ.condWaiter.next) :
    Counts list' σ' ∧ ∃ l, list c = w :: l ∧ list' = update list c l := by
  have hth := hb.lists.threads c
  obtain ⟨l, hw⟩ := hth.of_first hf
  rw [hw] at hth
  have hlt := hb.length_lt c
  have hcount := h c
  rw [hw, length_cons] at hlt hcount
  obtain ⟨hc, hlist⟩ := h.replace hb.lists hl' hcond hnext hth.pop
    (show ((σ.cond c).waiterCount + 2 ^ 32 - 1) % 2 ^ 32 = l.length by omega)
  exact ⟨hc, l, hw, hlist⟩

end

/-! ## Steps -/

variable [DecidableEq S]

theorem Moves.down {s : S} {r : Bool} {g : Ghost S}
    (e : down { σ with ghost := g } x s r = some σ') :
    ∃ p, Moves σ σ' x p ∧ SameLists σ σ' ∧ p.taken = [] := by
  obtain ⟨_, rfl⟩ | ⟨t, _, _, rfl⟩ := down_cases e
  · rw [finishDown_eq]
    exact ⟨.run, Moves.setPc rfl rfl rfl, ⟨rfl, rfl⟩, rfl⟩
  · exact ⟨.downSleep s r, Moves.setPc rfl rfl rfl, ⟨rfl, rfl⟩, rfl⟩

theorem up_frame {s : S} (e : up σ x s = some σ') :
    σ'.pc = σ.pc ∧ σ'.tasks = σ.tasks ∧ σ'.active = σ.active ∧ SameLists σ σ' := by
  obtain ⟨_, rfl⟩ | ⟨w, t, _, _, rfl⟩ := up_cases e <;> exact ⟨rfl, rfl, rfl, rfl, rfl⟩

theorem Moves.waitRound {m : S} (e : waitRound σ x c m = some σ') :
    Moves σ σ' x (.waitSleep c m) ∧ SameLists σ σ' := by
  obtain ⟨t, σ2, _, hu, rfl⟩ := waitRound_inv e
  obtain ⟨hpc, ht, ha, hl⟩ := up_frame hu
  exact ⟨Moves.setPc hpc ht ha, hl.cond, hl.next⟩

variable [DecidableEq C]

/-- What the first section of a call does to the lists, when `x` makes it and then is at
`p`. -/
def CallEffect (σ σ' : State S C) (x : Ctx) (p : Pc S C) : Call S C → Prop
  | .down _ => SameLists σ σ' ∧ p.taken = []
  | .up _ => SameLists σ σ' ∧ p.taken = []
  | .wait c _ =>
    σ'.cond = (linkCond σ x c).cond ∧ σ'.condWaiter.next = (linkCond σ x c).condWaiter.next
      ∧ p.taken = []
  | .notifyOne c =>
    ((σ.cond c).waiters.first = none ∧ SameLists σ σ' ∧ p.taken = [])
      ∨ ∃ w, (σ.cond c).waiters.first = some w ∧ σ'.cond = (unlinkCond σ c).cond
        ∧ σ'.condWaiter.next = σ.condWaiter.next ∧ p.taken = [w]
  | .notifyAll c =>
    ∃ ws, follow σ.condWaiter.next (2 * σ.tasks.length) (σ.cond c).waiters.first = some ws
      ∧ σ'.cond = (clearCond σ c).cond ∧ σ'.condWaiter.next = σ.condWaiter.next ∧ p.taken = ws

/-- What a call does. -/
theorem call_effect {op : Call S C} (h : step σ (.call op) = some σ') :
    ∃ x p, σ.cur = some x ∧ σ.pc x = .run ∧ Moves σ σ' x p ∧ CallEffect σ σ' x p op := by
  obtain ⟨x, k, hx, hp, _, h⟩ := step_call_inv h
  cases op with
  | down s =>
    obtain ⟨p, hm, hl, ht⟩ := Moves.down (σ := { σ with handler := k }) h
    exact ⟨x, p, hx, hp, { hm with }, ⟨hl.cond, hl.next⟩, ht⟩
  | up s =>
    obtain ⟨hpc, ht, ha, hl⟩ := up_frame h
    refine ⟨x, .run, hx, hp, ⟨?_, ht, fun t h => Or.inl (ha ▸ h)⟩, ⟨hl.cond, hl.next⟩, rfl⟩
    rw [hpc, ← hp]
    exact (update_eq_self x σ.pc).symm
  | wait c m =>
    obtain ⟨hm, hl⟩ := Moves.waitRound (wait_inv h)
    exact ⟨x, _, hx, hp, { hm with }, hl.cond, hl.next, rfl⟩
  | notifyOne c =>
    obtain ⟨hf, rfl⟩ | ⟨w, hf, rfl⟩ := notifyOne_cases h
    · refine ⟨x, .run, hx, hp, ⟨?_, rfl, fun t h => Or.inl h⟩, Or.inl ⟨hf, ⟨rfl, rfl⟩, rfl⟩⟩
      rw [← hp]
      exact (update_eq_self x σ.pc).symm
    · exact ⟨x, _, hx, hp, Moves.setPc rfl rfl rfl,
        Or.inr ⟨w, hf, rfl, rfl, Pc.taken_notifying _⟩⟩
  | notifyAll c =>
    obtain ⟨ws, hf, h⟩ := of_bind h
    cases h
    exact ⟨x, _, hx, hp, Moves.setPc rfl rfl rfl, ws, hf, rfl, rfl, Pc.taken_notifying _⟩

/-- What going on inside a call does: a notifier that was about to call `wakeUpTask`
has one waiter less to wake. -/
theorem advance_effect (h : step σ (.advance next) = some σ') :
    ∃ x p, σ.cur = some x ∧ Moves σ σ' x p ∧ SameLists σ σ'
      ∧ (σ.pc x).taken = (σ.pc x).waking.toList ++ p.taken := by
  obtain ⟨x, hx, h⟩ := of_bind h
  cases advance_cases h with
  | leave n hp hn =>
    refine ⟨x, .run, hx, ⟨?_, rfl, fun t ht => (hn t ht).imp_right And.left⟩, ⟨rfl, rfl⟩,
      by rw [hp]; rfl⟩
    rw [← hp]
    exact (update_eq_self x σ.pc).symm
  | save hn hp hnext =>
    exact ⟨x, _, hx, ⟨rfl, rfl, fun t ht => Or.inr (hnext t ht).1⟩, ⟨rfl, rfl⟩,
      by rw [hp]; cases hn <;> rfl⟩
  | wake hn hp =>
    refine ⟨x, _, hx, Moves.setPc rfl rfl rfl, ⟨rfl, rfl⟩, ?_⟩
    rcases hp with hp | ⟨hp, _⟩ <;> rw [hp] <;> cases hn <;> rfl
  | finish s r hp => exact ⟨x, .run, hx, ⟨rfl, rfl, fun _ => Or.inl⟩, ⟨rfl, rfl⟩, by rw [hp]; rfl⟩
  | again s r t hp => exact ⟨x, _, hx, Moves.setPc rfl rfl rfl, ⟨rfl, rfl⟩, by rw [hp]; rfl⟩
  | trigger c m hp => exact ⟨x, _, hx, Moves.setPc rfl rfl rfl, ⟨rfl, rfl⟩, by rw [hp]; rfl⟩
  | round c m hp _ e =>
    obtain ⟨hm, hl⟩ := Moves.waitRound e
    exact ⟨x, _, hx, hm, hl, by rw [hp]; rfl⟩
  | lock m hp e =>
    obtain ⟨p, hm, hl, ht⟩ := Moves.down e
    exact ⟨x, p, hx, hm, hl, by rw [hp, ht]; rfl⟩
  | notified hp => exact ⟨x, _, hx, Moves.setPc rfl rfl rfl, ⟨rfl, rfl⟩, by rw [hp]; rfl⟩
  | setUp w ws hp => exact ⟨x, _, hx, Moves.setPc rfl rfl rfl, ⟨rfl, rfl⟩, by rw [hp]; rfl⟩
  | wakeUp w ws t hp =>
    refine ⟨x, _, hx, Moves.setPc rfl rfl rfl, ⟨rfl, rfl⟩, ?_⟩
    rw [hp, Pc.taken_notifying]
    rfl

theorem Populated.step (h : Populated σ) (hs : Sync.step σ a = some σ') :
    Populated σ' ∧ σ'.tasks = σ.tasks := by
  cases a with
  | call op =>
    obtain ⟨x, p, hx, _, hm, _⟩ := call_effect hs
    exact ⟨h.moves hx hm, hm.tasks⟩
  | advance next =>
    obtain ⟨x, p, hx, hm, _⟩ := advance_effect hs
    exact ⟨h.moves hx hm, hm.tasks⟩
  | timer next =>
    obtain ⟨_, hs⟩ := of_assert hs
    obtain ⟨rfl, hnext⟩ := scheduleNext_eq hs
    exact ⟨⟨fun t ht => (hnext t ht).1, h.away⟩, rfl⟩
  | irq calls =>
    obtain ⟨_, hs⟩ := of_assert hs
    cases hs
    exact ⟨⟨h.active, h.away⟩, rfl⟩

theorem ListBase.step (h : ListBase list σ) (hok : HandlersDoNotBlock σ a)
    (hs : Sync.step σ a = some σ') : ∃ list', ListBase list' σ' := by
  obtain ⟨w, p, hi⟩ := h.sem
  obtain ⟨w', p', hi', _⟩ := semInv_step (fun _ => 0) hi hs
  obtain ⟨l', hl', hw'⟩ := wake_step hi h.lists h.wake hok hs
  obtain ⟨hp', ht⟩ := h.populated.step hs
  exact ⟨l', ⟨w', p', hi'⟩, hl', hw', hp', ht ▸ h.few⟩

/-- Every step keeps the counters right, and only a `wait` makes a list longer. -/
theorem Counts.step (h : Counts list σ) (hb : ListBase list σ) (hb' : ListBase list' σ')
    (hs : Sync.step σ a = some σ') : Counts list' σ'
      ∧ ∀ c, (∀ s, a ≠ .call (.wait c s)) → (list' c).length ≤ (list c).length := by
  have same : SameLists σ σ' → Counts list' σ'
      ∧ ∀ c, (∀ s, a ≠ .call (.wait c s)) → (list' c).length ≤ (list c).length := by
    intro hl
    obtain ⟨hc, rfl⟩ := h.of_same hb.lists hb'.lists hl
    exact ⟨hc, fun c _ => Nat.le_refl _⟩
  -- a list that is replaced by a shorter one
  have shorter : ∀ {c : C} {l : List Ctx}, list' = update list c l → l.length ≤ (list c).length →
      ∀ c', (list' c').length ≤ (list c').length := by
    intro c l hl hle c'
    rw [hl]
    by_cases hc : c' = c
    · subst hc
      rw [update_self]
      exact hle
    · rw [update_of_ne hc]
  cases a with
  | advance next =>
    obtain ⟨x, p, _, _, hl, _⟩ := advance_effect hs
    exact same hl
  | timer next =>
    obtain ⟨_, hs⟩ := of_assert hs
    obtain ⟨rfl, _⟩ := scheduleNext_eq hs
    exact same ⟨rfl, rfl⟩
  | irq calls =>
    obtain ⟨_, hs⟩ := of_assert hs
    cases hs
    exact same ⟨rfl, rfl⟩
  | call op =>
    obtain ⟨x, p, _, hp, _, he⟩ := call_effect hs
    cases op with
    | down s => exact same he.1
    | up s => exact same he.1
    | wait c s =>
      obtain ⟨hcond, hnext, _⟩ := he
      obtain ⟨hc, hl⟩ := h.link hb.lists hb' hp hcond hnext
      refine ⟨hc, fun c' hne => ?_⟩
      have hcc : c' ≠ c := fun e => hne s (by rw [e])
      rw [hl, update_of_ne hcc]
    | notifyOne c =>
      obtain ⟨_, hl, _⟩ | ⟨w, hf, hcond, hnext, _⟩ := he
      · exact same hl
      · obtain ⟨hc, l, hw, hl⟩ := h.unlink hb hb'.lists hf hcond hnext
        exact ⟨hc, fun c' _ => shorter hl (by rw [hw]; exact Nat.le_succ _) c'⟩
    | notifyAll c =>
      obtain ⟨ws, _, hcond, hnext, _⟩ := he
      obtain ⟨hc, hl⟩ := h.replace hb.lists hb'.lists hcond hnext (Represents.empty _) rfl
      exact ⟨hc, fun c' _ => shorter hl (Nat.zero_le _) c'⟩

end Flix.Sync

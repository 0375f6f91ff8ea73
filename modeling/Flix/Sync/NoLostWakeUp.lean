import Flix.Sync.WakeUp

/-!
# No lost wake-up, over every run

The steps of the machine put together: each keeps the semaphores' lists, the
condition variables' lists and the states of the tasks, and `no_lost_wakeup`
reads off what the three say about a task that is `Sleeping`.
-/

namespace Flix.Sync

open Function Fifo Runs

variable {S C : Type}

/-- The handler of an interrupt makes no blocking call. -/
def HandlersDoNotBlock (_ : State S C) : Action S C → Prop
  | .irq calls => ∀ op ∈ calls, op.blocks = false
  | _ => True

variable {waiting pending : S → List Ctx} {list : C → List Ctx} {σ σ' : State S C}

variable {x : Ctx} {t : Tid} {s : S} {c : C}

theorem WakeInv.takeCall (h : WakeInv σ) {op : Call S C} {k : Ctx → Option (List (Call S C))}
    (hk : (σ.handler x = none ∧ k = σ.handler)
      ∨ ∃ rest, σ.handler x = some (op :: rest) ∧ k = update σ.handler x (some rest)) :
    WakeInv { σ with handler := k } := by
  refine h.reschedule ?_ ?_ (fun t ht => Or.inl ht)
  · rcases hk with ⟨_, rfl⟩ | ⟨rest, hh, rfl⟩
    · exact h.calls
    · intro y ops hy op' hop
      by_cases hyx : y = x
      · subst hyx
        rw [update_self] at hy
        cases hy
        exact h.calls y _ hh op' (mem_cons_of_mem _ hop)
      · rw [update_of_ne hyx] at hy
        exact h.calls y ops hy op' hop
  · rcases hk with ⟨_, rfl⟩ | ⟨rest, hh, rfl⟩
    · exact h.tasks
    · intro t
      have hne : Ctx.task t ≠ x := by
        intro e
        rw [← e, h.tasks t] at hh; cases hh
      rw [update_of_ne hne]; exact h.tasks t

/-- A task whose state is no longer `Sleeping` has been woken. -/
theorem WakeInv.woken_sem (h : WakeInv σ) (ht : σ.taskState t ≠ .Sleeping)
    (hp : (σ.pc (.task t)).dozesOn = some s) : ¬ Asleep σ t ∧ σ.semWaiter.up (.task t) = true := by
  have hn : ¬ Asleep σ t := fun ha => ht ((h.asleep t).mpr ha)
  refine ⟨hn, ?_⟩
  by_contra hu
  exact hn (Or.inl ⟨by rw [hp]; simp, Bool.eq_false_iff.mpr hu⟩)

theorem WakeInv.woken_cond (h : WakeInv σ) (ht : σ.taskState t ≠ .Sleeping)
    (hp : (σ.pc (.task t)).sleepsOn = some c) :
    ¬ Asleep σ t ∧ σ.condWaiter.up (.task t) = true ∧ ∀ y, .task t ∉ (σ.pc y).taken := by
  have hn : ¬ Asleep σ t := fun ha => ht ((h.asleep t).mpr ha)
  have hsome : (σ.pc (.task t)).sleepsOn ≠ none := by rw [hp]; simp
  refine ⟨hn, ?_, fun y hy => hn (Or.inr ⟨hsome, Or.inr ⟨y, hy⟩⟩)⟩
  by_contra hu
  exact hn (Or.inr ⟨hsome, Or.inl (Bool.eq_false_iff.mpr hu)⟩)

theorem wake_woken (hl : ListInv list σ) (h : WakeInv σ) {p saved woken : Pc S C}
    (hn : Naps p saved woken) (hp : σ.pc (.task t) = saved ∨ σ.pc (.task t) = p)
    (ht : σ.taskState t ≠ .Sleeping) :
    ListInv list (σ.setPc (.task t) woken) ∧ WakeInv (σ.setPc (.task t) woken) := by
  cases hn with
  | down s r =>
    have hview : (σ.pc (.task t)).dozesOn = some s ∧ (σ.pc (.task t)).sleepsOn = none
        ∧ (σ.pc (.task t)).waking = none ∧ (σ.pc (.task t)).toNotify = []
        ∧ (σ.pc (.task t)).taken = [] := by
      rcases hp with hp | hp <;> rw [hp] <;> exact ⟨rfl, rfl, rfl, rfl, rfl⟩
    obtain ⟨hd, hs, hw, hn, htk⟩ := hview
    obtain ⟨hna, hu⟩ := h.woken_sem ht hd
    exact ⟨hl.of_same (SameCond.setPc (.of_pc rfl rfl rfl) hs.symm hw.symm hn.symm),
      h.goOn hna rfl rfl htk.symm (fun _ _ _ => hu) nofun rfl⟩
  | wait c m =>
    have hview : (σ.pc (.task t)).sleepsOn = some c ∧ (σ.pc (.task t)).waking = none
        ∧ (σ.pc (.task t)).toNotify = [] ∧ (σ.pc (.task t)).taken = [] := by
      rcases hp with hp | hp <;> rw [hp] <;> exact ⟨rfl, rfl, rfl, rfl⟩
    obtain ⟨hs, hw, hn, htk⟩ := hview
    obtain ⟨hna, hu, hnt⟩ := h.woken_cond ht hs
    exact ⟨hl.leave hu hnt hw.symm hn.symm rfl,
      h.goOn hna rfl rfl htk.symm nofun (fun _ _ _ => hu) rfl⟩

theorem wake_save (hl : ListInv list σ) (h : WakeInv σ) {p saved woken : Pc S C}
    {next : Option Tid} (hn : Naps p saved woken) (hp : σ.pc (.task t) = p)
    (hnext : ∀ t, next = some t → t ∈ σ.tasks ∧ σ.taskState t = .Runnable) :
    ListInv list { σ.setPc (.task t) saved with active := next }
      ∧ WakeInv { σ.setPc (.task t) saved with active := next } := by
  have hview : saved.dozesOn = p.dozesOn ∧ saved.sleepsOn = p.sleepsOn ∧ saved.waking = p.waking
      ∧ saved.toNotify = p.toNotify ∧ p.taken = [] ∧ saved.taken = [] ∧ saved.isSaved = true := by
    cases hn <;> exact ⟨rfl, rfl, rfl, rfl, rfl, rfl, rfl⟩
  rw [← hp] at hview
  obtain ⟨hd, hs, hw, hn, hfrom, hto, hsaved⟩ := hview
  have hsame : SameCond σ (σ.setPc (.task t) saved) := SameCond.setPc (.of_pc rfl rfl rfl) hs hw hn
  exact ⟨(hl.of_same hsame).of_same (.of_pc rfl rfl rfl),
    h.save hd hs hfrom hto hsaved fun t' ht' => (hnext t' ht').2⟩

theorem listInv_init (n : S → Nat) (garbage : C → Nat) (tasks : List Tid) :
    ListInv (fun _ => []) (init n garbage tasks : State S C) := by
  refine ⟨fun _ => Represents.empty _, ?_, ?_, ?_, ?_, ?_, ?_, ?_, ?_⟩ <;>
    simp [init, Pc.taken, Pc.waking, Pc.toNotify, Pc.sleepsOn]

theorem wakeInv_init (n : S → Nat) (garbage : C → Nat) (tasks : List Tid) :
    WakeInv (init n garbage tasks : State S C) := by
  refine ⟨?_, ?_, ?_, ?_, ?_, ?_, ?_⟩ <;>
    simp [init, Asleep, Pc.dozesOn, Pc.sleepsOn, Pc.blocks]

/-! ## What a sleeping task can count on -/

/-- `x` is on the waiter list of a semaphore or of a condition variable. -/
def OnList (σ : State S C) (x : Ctx) : S ⊕ C → Prop
  | .inl s => ∃ l, Represents σ.semWaiter.next (σ.sem s).waiters l ∧ x ∈ l
  | .inr c => ∃ l, Represents σ.condWaiter.next (σ.cond c).waiters l ∧ x ∈ l

/-- `up` of the `Waiter` of `x` on that list. -/
def waiterUp (σ : State S C) (x : Ctx) : S ⊕ C → Bool
  | .inl _ => σ.semWaiter.up x
  | .inr _ => σ.condWaiter.up x

/-- The condition variable of the `wait` that a context is in, before it relocks. -/
def Pc.waitOn : Pc S C → Option C
  | .waitSleep c _ => some c
  | .waitSaved c _ => some c
  | .waitWoken c _ => some c
  | _ => none

/-- The `Waiter` of task `t` is up and `wakeUpTask` has run for it. -/
def WokenUp (σ : State S C) (t : Tid) : Prop :=
  ((σ.pc (.task t)).downOn ≠ none ∧ σ.semWaiter.up (.task t) = true)
    ∨ ((σ.pc (.task t)).waitOn ≠ none ∧ σ.condWaiter.up (.task t) = true
      ∧ ∀ y, .task t ∉ (σ.pc y).taken)

theorem onList_sem (hi : SemInv waiting pending σ) : OnList σ x (.inl s) ↔ x ∈ waiting s := by
  refine ⟨?_, fun h => ⟨_, hi.threads s, h⟩⟩
  rintro ⟨l, hl, hx⟩
  rwa [(hi.threads s).unique hl]

theorem onList_cond (hl : ListInv list σ) : OnList σ x (.inr c) ↔ x ∈ list c := by
  refine ⟨?_, fun h => ⟨_, hl.threads c, h⟩⟩
  rintro ⟨l, hrep, hx⟩
  rwa [(hl.threads c).unique hrep]

/-- A task asleep on a semaphore is on its list and on no other. -/
theorem asleep_sem (hi : SemInv waiting pending σ) (hl : ListInv list σ)
    (hd : (σ.pc x).downOn = some s) (hu : σ.semWaiter.up x = false) :
    OnList σ x (.inl s) ∧ ∀ L, OnList σ x L → L = .inl s := by
  refine ⟨(onList_sem hi).mpr ((hi.mem_waiting s x).mpr ⟨hd, hu⟩), fun L hL => ?_⟩
  cases L with
  | inl s' =>
    have := ((hi.mem_waiting s' x).mp ((onList_sem hi).mp hL)).1
    rw [hd] at this
    rw [Option.some.inj this]
  | inr c =>
    have := (hl.listed c x ((onList_cond hl).mp hL)).1
    rw [Pc.sleepsOn_of_downOn hd] at this; cases this

/-- A task asleep on a condition variable is on no semaphore's list. -/
theorem onList_of_sleepsOn (hi : SemInv waiting pending σ)
    (hc : (σ.pc x).sleepsOn = some c) (s : S) : ¬ OnList σ x (.inl s) := by
  intro hL
  have := ((hi.mem_waiting s x).mp ((onList_sem hi).mp hL)).1
  rw [Pc.sleepsOn_of_downOn this] at hc; cases hc

theorem WakeInv.not_asleep_of_wokenUp (h : WakeInv σ) (hw : WokenUp σ t) :
    σ.taskState t ≠ .Sleeping := by
  rw [Ne, h.asleep]
  rintro (⟨hd, hu⟩ | ⟨hs, hu⟩) <;> rcases hw with ⟨hd', hu'⟩ | ⟨hs', hu', hnt⟩
  · rw [hu] at hu'; cases hu'
  · cases hp : σ.pc (.task t) <;> simp_all [Pc.dozesOn, Pc.waitOn]
  · cases hp : σ.pc (.task t) <;> simp_all [Pc.sleepsOn, Pc.downOn]
  · rcases hu with hu | ⟨y, hy⟩
    · rw [hu] at hu'; cases hu'
    · exact hnt y hy

theorem noLostWakeUp_sleeping (hi : SemInv waiting pending σ) (hl : ListInv list σ)
    (h : WakeInv σ) (ht : σ.taskState t = .Sleeping) :
    ((σ.pc (.task t)).goesToSleep = true ∨ (σ.pc (.task t)).isSaved = true)
    ∧ ((∃ L, OnList σ (.task t) L ∧ waiterUp σ (.task t) L = false
          ∧ ∀ L', OnList σ (.task t) L' → L' = L)
        ∨ (∃ y, .task t ∈ (σ.pc y).taken) ∧ ∀ L, ¬ OnList σ (.task t) L) := by
  rcases (h.asleep t).mp ht with ⟨hd, hu⟩ | ⟨hs, hu⟩
  · obtain ⟨s, hs⟩ := Option.ne_none_iff_exists'.mp hd
    obtain ⟨hon, honly⟩ := asleep_sem hi hl (Pc.downOn_of_dozesOn hs) hu
    refine ⟨?_, Or.inl ⟨_, hon, hu, honly⟩⟩
    cases hp : σ.pc (.task t) <;> simp_all [Pc.dozesOn, Pc.goesToSleep, Pc.isSaved]
  · obtain ⟨c, hc⟩ := Option.ne_none_iff_exists'.mp hs
    refine ⟨?_, ?_⟩
    · cases hp : σ.pc (.task t) <;> simp_all [Pc.sleepsOn, Pc.goesToSleep, Pc.isSaved]
    by_cases htk : ∃ y, Ctx.task t ∈ (σ.pc y).taken
    · -- a notifier has it
      refine Or.inr ⟨htk, fun L hL => ?_⟩
      obtain ⟨y, hy⟩ := htk
      cases L with
      | inl s => exact onList_of_sleepsOn hi hc s hL
      | inr c' => exact hl.untaken c' _ ((onList_cond hl).mp hL) y hy
    · have hup : σ.condWaiter.up (.task t) = false := hu.resolve_right htk
      have hmem : Ctx.task t ∈ list c := by
        rcases hl.asleep _ c hc hup with hm | ⟨y, hy⟩
        · exact hm
        · exact absurd ⟨y, Pc.mem_taken.mpr (Or.inr hy)⟩ htk
      refine Or.inl ⟨.inr c, (onList_cond hl).mpr hmem, hup, fun L hL => ?_⟩
      cases L with
      | inl s => exact absurd hL (onList_of_sleepsOn hi hc s)
      | inr c' =>
        have := (hl.listed c' _ ((onList_cond hl).mp hL)).1
        rw [hc] at this
        rw [Option.some.inj this]

/-! ## The steps -/

variable [DecidableEq S] [DecidableEq C]

/-- The contract between sleepers and wakers. -/
structure NoLostWakeUp (σ : State S C) : Prop where
  /-- A `Sleeping` task is on its way into `putMeToSleep` or saved in it; and it is on
  exactly one waiter list, not up, or on none because a notifier has taken it off and has
  not woken it yet. -/
  sleeping : ∀ t, σ.taskState t = .Sleeping →
    ((σ.pc (.task t)).goesToSleep = true ∨ (σ.pc (.task t)).isSaved = true)
    ∧ ((∃ L, OnList σ (.task t) L ∧ waiterUp σ (.task t) L = false
          ∧ ∀ L', OnList σ (.task t) L' → L' = L)
        ∨ (∃ y, .task t ∈ (σ.pc y).taken) ∧ ∀ L, ¬ OnList σ (.task t) L)
  /-- A task that was woken up is not `Sleeping`. -/
  woken : ∀ t, WokenUp σ t → σ.taskState t ≠ .Sleeping
  /-- If that happened before it called `putMeToSleep`, the call returns at once. -/
  kept : ∀ t next, WokenUp σ t → σ.cur = some (.task t) →
    (σ.pc (.task t)).goesToSleep = true →
    ∃ p, p.isSaved = false ∧ p.goesToSleep = false
      ∧ step σ (.advance next) = some (σ.setPc (.task t) p)

omit [DecidableEq C] in
/-- The first section of a `down`, made by a task that is in no other call. -/
theorem wake_down (hl : ListInv list σ) (h : WakeInv σ) {r : Bool}
    {g : Ghost S} (ha : σ.active = some t) (hd : (σ.pc (.task t)).dozesOn = none)
    (hs : (σ.pc (.task t)).sleepsOn = none) (ht : (σ.pc (.task t)).waking = none)
    (hn : (σ.pc (.task t)).toNotify = []) (e : down { σ with ghost := g } (.task t) s r = some σ') :
    ListInv list σ' ∧ WakeInv σ' := by
  have htaken : (σ.pc (.task t)).taken = [] := by rw [Pc.taken, ht, hn]; rfl
  have hnot : ¬ Asleep σ t := by unfold Asleep; rw [hd, hs]; simp
  obtain ⟨_, rfl⟩ | ⟨t', _, hact, rfl⟩ := down_cases e
  · rw [finishDown_eq]
    constructor
    · refine hl.of_same (SameCond.setPc (.of_pc rfl rfl rfl) hs.symm ht.symm hn.symm)
    · exact (h.frame _ _ _).goOn hnot rfl rfl htaken.symm (by simp) (by simp) rfl
  · obtain rfl : t = t' := mem_unique ha hact
    constructor
    · refine hl.of_same (SameCond.setPc (.of_pc rfl rfl rfl) hs.symm ht.symm hn.symm)
    · refine h.goToSleep rfl (fun y hy => ?_) (fun _ _ => rfl) rfl rfl rfl
        htaken rfl rfl (Or.inl ⟨?_, ?_⟩)
      · exact update_of_ne hy ..
      · rw [State.setPc_self]; simp [Pc.dozesOn]
      · exact update_self ..

theorem wake_call (hi : SemInv waiting pending σ) (hl : ListInv list σ) (h : WakeInv σ)
    {op : Call S C} (hs : step σ (.call op) = some σ') : ∃ l, ListInv l σ' ∧ WakeInv σ' := by
  obtain ⟨x, k, hx, hp, ht, hs⟩ := step_call_inv hs
  have hik : SemInv waiting pending { σ with handler := k } :=
    hi.of_same ⟨rfl, rfl, rfl, rfl, rfl, rfl, rfl, fun _ => rfl⟩
  have hlk : ListInv list { σ with handler := k } :=
    hl.of_same (.of_pc rfl rfl rfl)
  have hk := h.takeCall ht
  cases op with
  | down s =>
    obtain ⟨t, rfl⟩ := h.task_of_call hx rfl (ht.imp And.left fun ⟨r, hr⟩ => ⟨r, hr.1⟩)
    exact ⟨list, wake_down hlk hk (State.cur_tid hx) (by rw [hp]; rfl)
      (by rw [hp]; rfl) (by rw [hp]; rfl) (by rw [hp]; rfl) hs⟩
  | up s =>
    refine ⟨list, ?_, hk.up hik hs⟩
    obtain ⟨_, rfl⟩ | ⟨w, t, _, _, rfl⟩ := up_cases hs <;>
      exact hlk.of_same (.of_pc rfl rfl rfl)
  | wait c m =>
    obtain ⟨t, rfl⟩ := h.task_of_call hx rfl (ht.imp And.left fun ⟨r, hr⟩ => ⟨r, hr.1⟩)
    obtain ⟨t', σ2, ha, hu, rfl⟩ := waitRound_inv (wait_inv hs)
    obtain rfl : t = t' := Option.some.inj ((State.cur_tid hx).symm.trans ha)
    obtain ⟨σ0, hu0, hst, hsu, hco, hcw, hac, hha, hpc, hco0, hcw0, hac0, hha0, hpc0⟩ :=
      up_of_asleep hk hik hu (by rw [hp]; rfl) rfl rfl rfl
    have h0 := hk.up hik hu0
    have hlink : SameCond ((linkCond σ (.task t) c).setPc (.task t) (.waitSleep c m))
        (σ2.setPc (.task t) (.waitSleep c m)) :=
      .of_pc hco hcw (congrArg (update · _ _) hpc)
    refine ⟨_, (hl.link hp).of_same hlink, ?_⟩
    refine h0.goToSleep (p := .waitSleep c m) hst (fun y _ => congrFun hsu y) (fun y hy => ?_)
      (hac.trans hac0.symm) (hha.trans hha0.symm) ?_ ?_ rfl rfl (Or.inr ⟨?_, Or.inl ?_⟩)
    · show σ2.condWaiter.up y = σ0.condWaiter.up y
      rw [hcw, hcw0]; exact update_of_ne hy ..
    · show update σ2.pc _ _ = update σ0.pc _ _
      rw [hpc, hpc0]; rfl
    · rw [hpc0, hp]; rfl
    · rw [State.setPc_self]; simp [Pc.sleepsOn]
    · show σ2.condWaiter.up (.task t) = false
      rw [hcw]; exact update_self ..
  | notifyOne c =>
    obtain ⟨_, rfl⟩ | ⟨w, hf, rfl⟩ := notifyOne_cases hs
    · exact ⟨list, hlk, hk⟩
    · obtain ⟨l, hw⟩ := (hl.threads c).of_first hf
      have hth := hl.threads c
      rw [hw] at hth
      refine ⟨_, hlk.take hp (show list c = [w] ++ l from hw) hth.pop,
        (hk.frame _ _ _).take hp (fun v hv => ?_)⟩
      obtain rfl := mem_singleton.mp hv
      obtain ⟨h1, h2⟩ := hl.listed c v (by rw [hw]; exact mem_cons_self)
      exact ⟨by rw [h1]; simp, h2⟩
  | notifyAll c =>
    obtain ⟨ws, hf, hs⟩ := of_bind hs
    cases hs
    have hws : ws = list c := by
      have hth := hl.threads c
      have hf' : follow σ.condWaiter.next (2 * σ.tasks.length) (list c).head? = some ws :=
        hth.first ▸ hf
      exact follow_eq hth.linked hf'
    subst hws
    refine ⟨_, hlk.take hp (by simp) (Represents.empty _),
      (hk.frame _ _ _).take hp (fun v hv => ?_)⟩
    obtain ⟨h1, h2⟩ := hl.listed c v hv
    exact ⟨by rw [h1]; simp, h2⟩

theorem wake_advance (hl : ListInv list σ) (h : WakeInv σ) {next : Option Tid}
    (hs : step σ (.advance next) = some σ') : ∃ l, ListInv l σ' ∧ WakeInv σ' := by
  obtain ⟨x, hx, hs⟩ := of_bind hs
  have htask : (σ.pc x).blocks = true → ∃ t, x = .task t ∧ σ.active = some t := by
    intro hb
    obtain ⟨t, rfl⟩ := h.task_of_blocks hb
    exact ⟨t, rfl, State.cur_tid hx⟩
  cases advance_cases hs with
  | leave n hp hn =>
    refine ⟨list, hl.of_same (.of_pc rfl rfl rfl), h.reschedule ?_ ?_ fun t ht =>
      (hn t ht).imp_right And.right⟩
    · intro y ops hy
      by_cases hyx : y = x
      · subst hyx; rw [update_self] at hy; cases hy
      · rw [update_of_ne hyx] at hy; exact h.calls y ops hy
    · intro t
      by_cases hyx : Ctx.task t = x
      · rw [hyx, update_self]
      · rw [update_of_ne hyx]; exact h.tasks t
  | save hn hp hnext =>
    obtain ⟨t, rfl, _⟩ := htask (by rw [hp]; cases hn <;> rfl)
    exact ⟨list, wake_save hl h hn hp hnext⟩
  | wake hn hp =>
    obtain ⟨t, rfl, ha⟩ := htask (by rcases hp with hp | ⟨hp, _⟩ <;> rw [hp] <;> cases hn <;> rfl)
    refine ⟨list, wake_woken hl h hn (hp.imp_right And.left) ?_⟩
    rcases hp with hp | ⟨_, t', ha', hns⟩
    · exact h.active t ha (by rw [hp]; cases hn <;> rfl)
    · rwa [mem_unique ha ha']
  | finish s r hp =>
    obtain ⟨t, rfl, _⟩ := htask (by rw [hp]; rfl)
    rw [finishDown_eq]
    refine ⟨list, hl.of_same (SameCond.setPc (.of_pc rfl rfl rfl) (by rw [hp]; rfl)
      (by rw [hp]; rfl) (by rw [hp]; rfl)), (h.frame _ _ _).goOn ?_ rfl rfl
        (show [] = (σ.pc (.task t)).taken by rw [hp]; rfl) (by simp) (by simp) rfl⟩
    unfold Asleep; rw [hp]; simp [Pc.dozesOn, Pc.sleepsOn]
  | again s r t hp hu => exact absurd (h.semWoken x s r hp) hu
  | trigger c m hp =>
    obtain ⟨t, rfl, _⟩ := htask (by rw [hp]; rfl)
    refine ⟨list, hl.of_same (SameCond.setPc (.of_pc rfl rfl rfl) (by rw [hp]; rfl)
      (by rw [hp]; rfl) (by rw [hp]; rfl)), h.goOn ?_ rfl rfl (by rw [hp]; rfl)
      (by simp) (by simp) rfl⟩
    unfold Asleep; rw [hp]; simp [Pc.dozesOn, Pc.sleepsOn]
  | round c m hp hu => exact absurd (h.condWoken x c m hp) hu
  | lock m hp e =>
    obtain ⟨t, rfl, ha⟩ := htask (by rw [hp]; rfl)
    exact ⟨list, wake_down hl h ha (by rw [hp]; rfl) (by rw [hp]; rfl) (by rw [hp]; rfl)
      (by rw [hp]; rfl) e⟩
  | notified hp =>
    refine ⟨list, hl.of_same (SameCond.setPc (.of_pc rfl rfl rfl) (by rw [hp]; rfl)
      (by rw [hp]; rfl) (by rw [hp]; rfl)), h.setPc (asleep_setPc (by rw [hp]; rfl)
        fun t ht => ?_) (by simp) (by simp) rfl (fun _ => rfl)⟩
    subst ht
    refine iff_of_false (not_asleep_setPc rfl rfl) ?_
    unfold Asleep; rw [hp]; simp [Pc.dozesOn, Pc.sleepsOn]
  | setUp w ws hp => exact ⟨list, hl.setUp hp, h.setUp hp⟩
  | wakeUp w ws t hp ht =>
    exact ⟨list, (hl.wake hp).of_same (.of_pc rfl rfl rfl), h.wake hl hp ht⟩

/-- Every step keeps the states of the tasks right, if handlers do not block. -/
theorem wake_step (hi : SemInv waiting pending σ) (hl : ListInv list σ) (h : WakeInv σ)
    {a : Action S C} (hok : HandlersDoNotBlock σ a) (hs : step σ a = some σ') :
    ∃ l, ListInv l σ' ∧ WakeInv σ' := by
  cases a with
  | call op => exact wake_call hi hl h hs
  | advance next => exact wake_advance hl h hs
  | timer next =>
    obtain ⟨_, hs⟩ := of_assert hs
    obtain ⟨rfl, hnext⟩ := scheduleNext_eq hs
    exact ⟨list, hl.of_same (.of_pc rfl rfl rfl),
      h.reschedule h.calls h.tasks (fun t ht => Or.inr (hnext t ht).2)⟩
  | irq calls =>
    obtain ⟨_, hs⟩ := of_assert hs
    cases hs
    refine ⟨list, hl.of_same (.of_pc rfl rfl rfl),
      h.reschedule ?_ ?_ (fun t ht => Or.inl ht)⟩
    · intro y ops hy
      by_cases hyx : y = σ.handlerCtx
      · rw [hyx, update_self] at hy
        cases hy; exact hok
      · rw [update_of_ne hyx] at hy; exact h.calls y ops hy
    · intro t
      have hne : Ctx.task t ≠ σ.handlerCtx := by
        unfold State.handlerCtx; split <;> simp
      rw [update_of_ne hne]; exact h.tasks t

theorem wake_reachable {n : S → Nat} {garbage : C → Nat} {tasks : List Tid}
    (h : Reach step HandlersDoNotBlock (init n garbage tasks) σ) :
    ∃ waiting pending list, SemInv waiting pending σ ∧ ListInv list σ ∧ WakeInv σ := by
  refine h.invariant (I := fun σ => ∃ w p l, SemInv w p σ ∧ ListInv l σ ∧ WakeInv σ) ?_ ?_
  · exact ⟨_, _, fun _ => [], semInv_init n garbage tasks, listInv_init n garbage tasks,
      wakeInv_init n garbage tasks⟩
  · rintro σ a σ' ⟨w, p, l, hi, hl, hw⟩ hok hs
    obtain ⟨w', p', hi', _⟩ := semInv_step n hi hs
    obtain ⟨l', hl', hw'⟩ := wake_step hi hl hw hok hs
    exact ⟨w', p', l', hi', hl', hw'⟩

/--
**No wake-up is lost.** In every state that any interleaving of tasks, timer and
non-blocking handlers reaches, a sleeping task has somebody who will wake it,
and a task that was woken does not sleep.
-/
theorem no_lost_wakeup (n : S → Nat) (garbage : C → Nat) (tasks : List Tid) (σ : State S C)
    (hr : Reach step HandlersDoNotBlock (init n garbage tasks) σ) : NoLostWakeUp σ := by
  obtain ⟨w, p, l, hi, hl, h⟩ := wake_reachable hr
  refine ⟨fun t ht => noLostWakeUp_sleeping hi hl h ht, fun t => h.not_asleep_of_wokenUp,
    fun t next hw hcur hgo => ?_⟩
  have hns := h.not_asleep_of_wokenUp hw
  have hact : σ.active = some t := State.cur_tid hcur
  cases hp : σ.pc (.task t) with
  | downSleep s r =>
    refine ⟨.downWoken s r, rfl, rfl, ?_⟩
    simp [step, hcur, advance, hp, putMeToSleep, hact, hns]
  | waitSleep c m =>
    refine ⟨.waitWoken c m, rfl, rfl, ?_⟩
    simp [step, hcur, advance, hp, putMeToSleep, hact, hns]
  | _ => rw [hp] at hgo; cases hgo

instance (σ : State S C) : (a : Action S C) → Decidable (HandlersDoNotBlock σ a)
  | .irq calls => inferInstanceAs (Decidable (∀ op ∈ calls, op.blocks = false))
  | .call _ => .isTrue trivial
  | .advance _ => .isTrue trivial
  | .timer _ => .isTrue trivial

/-- Task 1 is preempted on its way into `putMeToSleep`, and task 2 notifies it. -/
def earlyNotifyRun : List (Action Unit Unit) :=
  [.timer (some 1), .call (.down ()), .call (.wait () ()), .timer (some 2),
    .call (.notifyOne ()), .advance none]

theorem no_lost_wakeup_earlyNotifyRun :
    ∃ σ : State Unit Unit,
      Reach step HandlersDoNotBlock (init (fun _ => 1) (fun _ => 0) [1, 2]) σ
      ∧ σ.taskState 1 = .Sleeping ∧ (σ.pc (.task 2)).taken = [.task 1] ∧ NoLostWakeUp σ := by
  have hrun : (guardedRun step HandlersDoNotBlock
      (init (fun _ => 1) (fun _ => 0) [1, 2] : State Unit Unit) earlyNotifyRun).map
        (fun σ => decide (σ.taskState 1 = .Sleeping ∧ (σ.pc (.task 2)).taken = [.task 1]))
      = some true := by decide
  obtain ⟨σ, hσ, hv⟩ := map_eq_some_iff.mp hrun
  obtain ⟨h1, h2⟩ := of_decide_eq_true hv
  have hr := Reach.of_guardedRun hσ
  exact ⟨σ, hr, h1, h2, no_lost_wakeup _ _ _ σ hr⟩

end Flix.Sync

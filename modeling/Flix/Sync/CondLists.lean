import Flix.Sync.Semaphores

/-!
# The waiter lists of the condition variables

A context asleep in `wait` is in one of three places. It is on the list of its
condition variable; or a notifier has taken it off the list and has not set its
`up` yet; or the notifier has set `up` and has not called `wakeUpTask` yet. The
last two happen outside the lock, so any number of steps of other contexts can
come in between.

`ListInv` keeps track of the three places. It is stated over what the places in
the code say about waiting and notifying, so that a step that changes none of
this keeps it for free (`ListInv.of_same`).
-/

namespace Flix.Sync

open Function Fifo Runs

variable {S C : Type}

/-- The condition variable a context is asleep on, from its `prepareMeForSleep` to the
return of its `putMeToSleep`. -/
def Pc.sleepsOn : Pc S C → Option C
  | .waitSleep c _ => some c
  | .waitSaved c _ => some c
  | _ => none

/-- The waiter a notifier is about to call `wakeUpTask` for. -/
def Pc.waking : Pc S C → Option Ctx
  | .notifyWake w _ => some w
  | _ => none

/-- The waiters a notifier has taken off the list and not set `up` of yet. -/
def Pc.toNotify : Pc S C → List Ctx
  | .notify ws => ws
  | .notifyWake _ ws => ws
  | _ => []

/-- All waiters a notifier has taken off the list and not woken yet. -/
def Pc.taken (p : Pc S C) : List Ctx := p.waking.toList ++ p.toNotify

variable {p : Pc S C} {x : Ctx} {ws : List Ctx} {c : C}

theorem Pc.mem_taken : x ∈ p.taken ↔ p.waking = some x ∨ x ∈ p.toNotify := by
  simp [Pc.taken]

@[simp] theorem Pc.sleepsOn_notifying (ws : List Ctx) :
    (Pc.notifying ws : Pc S C).sleepsOn = none := by
  unfold Pc.notifying; split <;> rfl

@[simp] theorem Pc.waking_notifying (ws : List Ctx) :
    (Pc.notifying ws : Pc S C).waking = none := by
  unfold Pc.notifying; split <;> rfl

@[simp] theorem Pc.toNotify_notifying (ws : List Ctx) :
    (Pc.notifying ws : Pc S C).toNotify = ws := by
  unfold Pc.notifying; split <;> simp_all [Pc.toNotify]

@[simp] theorem Pc.taken_notifying (ws : List Ctx) :
    (Pc.notifying ws : Pc S C).taken = ws := by
  simp [Pc.taken]

/-- The two states agree on everything about condition variables. -/
structure SameCond (σ σ' : State S C) : Prop where
  cond : σ'.cond = σ.cond
  condWaiter : σ'.condWaiter = σ.condWaiter
  sleepsOn : ∀ y, (σ'.pc y).sleepsOn = (σ.pc y).sleepsOn
  waking : ∀ y, (σ'.pc y).waking = (σ.pc y).waking
  toNotify : ∀ y, (σ'.pc y).toNotify = (σ.pc y).toNotify

variable {σ σ' σ₁ : State S C}

theorem SameCond.taken (h : SameCond σ σ') (y : Ctx) : (σ'.pc y).taken = (σ.pc y).taken := by
  rw [Pc.taken, Pc.taken, h.waking, h.toNotify]

theorem SameCond.of_pc (hcond : σ'.cond = σ.cond) (hwait : σ'.condWaiter = σ.condWaiter)
    (hpc : σ'.pc = σ.pc) : SameCond σ σ' :=
  ⟨hcond, hwait, fun y => by rw [hpc], fun y => by rw [hpc], fun y => by rw [hpc]⟩

/-- Moving a context between places that say the same about condition variables. -/
theorem SameCond.setPc (h : SameCond σ σ₁) (hs : p.sleepsOn = (σ.pc x).sleepsOn)
    (hw : p.waking = (σ.pc x).waking) (hn : p.toNotify = (σ.pc x).toNotify) :
    SameCond σ (σ₁.setPc x p) := by
  rw [← h.sleepsOn] at hs
  rw [← h.waking] at hw
  rw [← h.toNotify] at hn
  exact ⟨h.cond, h.condWaiter, fun y => (σ₁.view_setPc _ hs y).trans (h.sleepsOn y),
    fun y => (σ₁.view_setPc _ hw y).trans (h.waking y),
    fun y => (σ₁.view_setPc _ hn y).trans (h.toNotify y)⟩

/-- Where the contexts asleep on condition variables are; `list c` is the list of `c`. -/
structure ListInv (list : C → List Ctx) (σ : State S C) : Prop where
  /-- The intrusive list threads `list c`. -/
  threads : ∀ c, Represents σ.condWaiter.next (σ.cond c).waiters (list c)
  /-- Its members are asleep on `c` and not up. -/
  listed : ∀ c x, x ∈ list c → (σ.pc x).sleepsOn = some c ∧ σ.condWaiter.up x = false
  /-- No notifier has taken them. -/
  untaken : ∀ c x, x ∈ list c → ∀ y, x ∉ (σ.pc y).taken
  /-- What a notifier has taken is asleep. -/
  taken : ∀ x y, x ∈ (σ.pc y).taken → ∃ c, (σ.pc x).sleepsOn = some c
  /-- One notifier has it, once. -/
  taken_once : ∀ x y y', x ∈ (σ.pc y).taken → x ∈ (σ.pc y').taken → y = y'
  taken_nodup : ∀ y, (σ.pc y).taken.Nodup
  /-- `up` is set by the notifier, one waiter at a time. -/
  not_up : ∀ x y, x ∈ (σ.pc y).toNotify → σ.condWaiter.up x = false
  up : ∀ x y, (σ.pc y).waking = some x → σ.condWaiter.up x = true
  /-- Whoever is asleep and not up is on the list or has been taken off it. -/
  asleep : ∀ x c, (σ.pc x).sleepsOn = some c → σ.condWaiter.up x = false →
    x ∈ list c ∨ ∃ y, x ∈ (σ.pc y).toNotify

variable {list : C → List Ctx}

theorem ListInv.of_same (h : ListInv list σ) (hs : SameCond σ σ') : ListInv list σ' where
  threads c := by rw [hs.cond, hs.condWaiter]; exact h.threads c
  listed c x := by rw [hs.sleepsOn, hs.condWaiter]; exact h.listed c x
  untaken c x hx y := by rw [hs.taken]; exact h.untaken c x hx y
  taken x y := by rw [hs.taken]; simp only [hs.sleepsOn]; exact h.taken x y
  taken_once x y y' := by rw [hs.taken, hs.taken]; exact h.taken_once x y y'
  taken_nodup y := by rw [hs.taken]; exact h.taken_nodup y
  not_up x y := by rw [hs.toNotify, hs.condWaiter]; exact h.not_up x y
  up x y := by rw [hs.waking, hs.condWaiter]; exact h.up x y
  asleep x c := by
    rw [hs.sleepsOn, hs.condWaiter]; simp only [hs.toNotify]; exact h.asleep x c

/-- Whoever is on no list and asleep on nothing is taken by nobody. -/
theorem ListInv.not_taken (h : ListInv list σ) (hx : (σ.pc x).sleepsOn = none)
    (y : Ctx) : x ∉ (σ.pc y).taken := by
  intro hm
  obtain ⟨c, hc⟩ := h.taken x y hm
  rw [hx] at hc; cases hc

theorem ListInv.not_listed (h : ListInv list σ) (hx : (σ.pc x).sleepsOn = none)
    (c : C) : x ∉ list c := by
  intro hm
  rw [(h.listed c x hm).1] at hx; cases hx

/-- A context whose `wait` goes on after it was notified. -/
theorem ListInv.leave (h : ListInv list σ)
    (hup : σ.condWaiter.up x = true) (hnt : ∀ y, x ∉ (σ.pc y).taken)
    (hw : p.waking = (σ.pc x).waking) (hn : p.toNotify = (σ.pc x).toNotify)
    (hs : p.sleepsOn = none) : ListInv list (σ.setPc x p) := by
  have hother : ∀ y, y ≠ x → (σ.setPc x p).pc y = σ.pc y := fun y hy => σ.setPc_of_ne hy p
  have hwaking := σ.view_setPc Pc.waking hw
  have hnotify := σ.view_setPc Pc.toNotify hn
  have htaken := σ.view_setPc Pc.taken (p := p) (by rw [Pc.taken, Pc.taken, hw, hn])
  have hlist : ∀ c, x ∉ list c := fun c hm => by
    rw [(h.listed c x hm).2] at hup; cases hup
  refine ⟨h.threads, ?_, ?_, ?_, ?_, ?_, ?_, ?_, ?_⟩
  · intro c y hy
    rw [hother y (fun e => hlist c (e ▸ hy))]
    exact h.listed c y hy
  · intro c y hy z
    rw [htaken]; exact h.untaken c y hy z
  · intro y z hy
    rw [htaken] at hy
    rw [hother y (fun e => hnt z (e ▸ hy))]
    exact h.taken y z hy
  · intro y z z'
    rw [htaken, htaken]; exact h.taken_once y z z'
  · intro y
    rw [htaken]; exact h.taken_nodup y
  · intro y z
    rw [hnotify]; exact h.not_up y z
  · intro y z
    rw [hwaking]; exact h.up y z
  · intro y c hy hu
    by_cases hyx : y = x
    · subst hyx
      rw [State.setPc_self, hs] at hy; cases hy
    · rw [hother y hyx] at hy
      simp only [hnotify]
      exact h.asleep y c hy hu

/-- A notifier sets `up` of the first waiter it has taken. -/
theorem ListInv.setUp (h : ListInv list σ) {w : Ctx} (hp : σ.pc x = .notify (w :: ws)) :
    ListInv list ((setUp σ w).setPc x (.notifyWake w ws)) := by
  have hother : ∀ y, y ≠ x → ((Sync.setUp σ w).setPc x (.notifyWake w ws)).pc y = σ.pc y :=
    fun y hy => State.setPc_of_ne _ hy _
  have htx : (σ.pc x).taken = w :: ws := by rw [hp]; rfl
  have hw : w ∈ (σ.pc x).taken := by rw [htx]; exact mem_cons_self
  have hsleeps := (Sync.setUp σ w).view_setPc Pc.sleepsOn (p := .notifyWake w ws)
    (show none = (σ.pc x).sleepsOn by rw [hp]; rfl)
  have htaken := (Sync.setUp σ w).view_setPc Pc.taken (p := .notifyWake w ws) htx.symm
  have hup : ∀ y, y ≠ w → update σ.condWaiter.up w true y = σ.condWaiter.up y :=
    fun y hy => update_of_ne hy ..
  have hnd : w ∉ ws := by
    have := h.taken_nodup x
    rw [htx] at this
    exact (nodup_cons.mp this).1
  refine ⟨h.threads, ?_, ?_, ?_, ?_, ?_, ?_, ?_, ?_⟩
  · intro c y hy
    have hyw : y ≠ w := fun e => h.untaken c y hy x (e ▸ hw)
    rw [hsleeps]
    exact ⟨(h.listed c y hy).1, (hup y hyw).trans (h.listed c y hy).2⟩
  · intro c y hy z
    rw [htaken]; exact h.untaken c y hy z
  · intro y z
    rw [htaken, hsleeps]; exact h.taken y z
  · intro y z z'
    rw [htaken, htaken]; exact h.taken_once y z z'
  · intro y
    rw [htaken]; exact h.taken_nodup y
  · intro y z hy
    by_cases hz : z = x
    · subst hz
      rw [State.setPc_self] at hy
      have hy' : y ∈ ws := hy
      exact (hup y (fun e => hnd (e ▸ hy'))).trans (h.not_up y z (by
        rw [hp]; exact mem_cons_of_mem _ hy'))
    · rw [hother z hz] at hy
      refine (hup y (fun e => hz ?_)).trans (h.not_up y z hy)
      exact h.taken_once w z x (Pc.mem_taken.mpr (Or.inr (e ▸ hy))) hw
  · intro y z hy
    by_cases hyw : y = w
    · subst hyw; exact update_self ..
    · have hz : z ≠ x := by
        intro e
        subst e
        rw [State.setPc_self] at hy
        exact hyw (Option.some.inj hy).symm
      rw [hother z hz] at hy
      exact (hup y hyw).trans (h.up y z hy)
  · intro y c hy hu
    rw [hsleeps] at hy
    have hyw : y ≠ w := by
      intro e
      subst e
      rw [show ((Sync.setUp σ y).setPc x (.notifyWake y ws)).condWaiter.up y = true from
        update_self ..] at hu
      cases hu
    rcases h.asleep y c hy ((hup y hyw).symm.trans hu) with hl | ⟨z, hz⟩
    · exact Or.inl hl
    · refine Or.inr ⟨z, ?_⟩
      by_cases hzx : z = x
      · subst hzx
        rw [hp] at hz
        rw [State.setPc_self]
        exact (mem_cons.mp hz).resolve_left hyw
      · rw [hother z hzx]; exact hz

/-- A notifier has woken a waiter and goes on with the others. -/
theorem ListInv.wake (h : ListInv list σ) {w : Ctx} (hp : σ.pc x = .notifyWake w ws) :
    ListInv list (σ.setPc x (.notifying ws)) := by
  have hother : ∀ y, y ≠ x → (σ.setPc x (.notifying ws)).pc y = σ.pc y := fun y hy =>
    σ.setPc_of_ne hy _
  have htx : (σ.pc x).taken = w :: ws := by rw [hp]; rfl
  have hself : ((σ.setPc x (.notifying ws)).pc x).taken = ws := by
    rw [State.setPc_self, Pc.taken_notifying]
  have hsleeps := σ.view_setPc Pc.sleepsOn ((Pc.sleepsOn_notifying ws).trans
    (by rw [hp]; rfl))
  have hnotify := σ.view_setPc Pc.toNotify ((Pc.toNotify_notifying ws).trans
    (by rw [hp]; rfl))
  have hsub : ∀ y z, z ∈ ((σ.setPc x (.notifying ws)).pc y).taken → z ∈ (σ.pc y).taken := by
    intro y z hz
    by_cases hy : y = x
    · subst hy
      rw [hself] at hz
      rw [htx]; exact mem_cons_of_mem _ hz
    · rw [hother y hy] at hz; exact hz
  refine ⟨h.threads, ?_, ?_, ?_, ?_, ?_, ?_, ?_, ?_⟩
  · intro c y
    rw [hsleeps]; exact h.listed c y
  · intro c y hy z hz
    exact h.untaken c y hy z (hsub z y hz)
  · intro y z hy
    rw [hsleeps]; exact h.taken y z (hsub z y hy)
  · intro y z z' hz hz'
    exact h.taken_once y z z' (hsub z y hz) (hsub z' y hz')
  · intro y
    by_cases hy : y = x
    · subst hy
      have := h.taken_nodup y
      rw [htx] at this
      rw [hself]; exact (nodup_cons.mp this).2
    · rw [hother y hy]; exact h.taken_nodup y
  · intro y z
    rw [hnotify]; exact h.not_up y z
  · intro y z hy
    by_cases hz : z = x
    · subst hz
      rw [State.setPc_self, Pc.waking_notifying] at hy; cases hy
    · rw [hother z hz] at hy
      exact h.up y z hy
  · intro y c
    rw [hsleeps]
    simp only [hnotify]
    exact h.asleep y c

variable [DecidableEq C]

theorem ListInv.take (h : ListInv list σ) {l : List Ctx} {v : CondVar}
    (hp : σ.pc x = .run) (hl : list c = ws ++ l)
    (hv : Represents σ.condWaiter.next v.waiters l) :
    ListInv (update list c l)
      ({ σ with cond := update σ.cond c v }.setPc x (.notifying ws)) := by
  obtain ⟨σ₁, hσ1⟩ : ∃ σ₁, σ₁ = { σ with cond := update σ.cond c v }.setPc x (.notifying ws) :=
    ⟨_, rfl⟩
  have hup : σ₁.condWaiter = σ.condWaiter := by rw [hσ1]; rfl
  have hother : ∀ y, y ≠ x → σ₁.pc y = σ.pc y := fun y hy => by
    rw [hσ1]; exact σ.setPc_of_ne hy _
  have hat : σ₁.pc x = .notifying ws := by rw [hσ1, State.setPc_self]
  have hself : (σ₁.pc x).taken = ws := by rw [hat, Pc.taken_notifying]
  have hsleeps : ∀ y, (σ₁.pc y).sleepsOn = (σ.pc y).sleepsOn := fun y => by
    rw [hσ1]
    exact σ.view_setPc Pc.sleepsOn ((Pc.sleepsOn_notifying ws).trans (by rw [hp]; rfl)) y
  have hnd : (ws ++ l).Nodup := hl ▸ (h.threads c).nodup
  have hws : ∀ y ∈ ws, y ∈ list c := fun y hy => by rw [hl]; exact mem_append_left _ hy
  have hsub : ∀ c' y, y ∈ update list c l c' → y ∈ list c' := by
    intro c' y hy
    by_cases hc : c' = c
    · subst hc
      rw [update_self] at hy
      rw [hl]; exact mem_append_right _ hy
    · rwa [update_of_ne hc] at hy
  rw [← hσ1]
  refine ⟨?_, ?_, ?_, ?_, ?_, ?_, ?_, ?_, ?_⟩
  · intro c'
    rw [hσ1]
    show Represents σ.condWaiter.next (update σ.cond c v c').waiters _
    by_cases hc : c' = c
    · subst hc; rw [update_self, update_self]; exact hv
    · rw [update_of_ne hc, update_of_ne hc]; exact h.threads c'
  · intro c' y hy
    rw [hsleeps, hup]; exact h.listed c' y (hsub c' y hy)
  · intro c' y hy z hz
    by_cases hzx : z = x
    · subst hzx
      rw [hself] at hz
      by_cases hc : c' = c
      · subst hc
        rw [update_self] at hy
        exact (List.nodup_append.mp hnd).2.2 y hz y hy rfl
      · have h1 := (h.listed c' y (hsub c' y hy)).1
        rw [(h.listed c y (hws y hz)).1] at h1
        exact hc (Option.some.inj h1).symm
    · rw [hother z hzx] at hz
      exact h.untaken c' y (hsub c' y hy) z hz
  · intro y z hy
    rw [hsleeps]
    by_cases hz : z = x
    · subst hz
      rw [hself] at hy
      exact ⟨c, (h.listed c y (hws y hy)).1⟩
    · rw [hother z hz] at hy
      exact h.taken y z hy
  · intro y z z' hz hz'
    -- what another notifier has taken was not on the list
    have key : ∀ u, u ≠ x → y ∈ (σ₁.pc u).taken → y ∉ ws := by
      intro u hu hy hyw
      rw [hother u hu] at hy
      exact h.untaken c y (hws y hyw) u hy
    by_cases h1 : z = x <;> by_cases h2 : z' = x
    · rw [h1, h2]
    · subst h1
      rw [hself] at hz
      exact absurd hz (key z' h2 hz')
    · subst h2
      rw [hself] at hz'
      exact absurd hz' (key z h1 hz)
    · rw [hother z h1] at hz
      rw [hother z' h2] at hz'
      exact h.taken_once y z z' hz hz'
  · intro y
    by_cases hy : y = x
    · subst hy; rw [hself]; exact (List.nodup_append.mp hnd).1
    · rw [hother y hy]; exact h.taken_nodup y
  · intro y z hy
    rw [hup]
    by_cases hz : z = x
    · subst hz
      rw [hat, Pc.toNotify_notifying] at hy
      exact (h.listed c y (hws y hy)).2
    · rw [hother z hz] at hy
      exact h.not_up y z hy
  · intro y z hy
    rw [hup]
    by_cases hz : z = x
    · subst hz
      rw [hat, Pc.waking_notifying] at hy; cases hy
    · rw [hother z hz] at hy
      exact h.up y z hy
  · intro y c' hy hu
    rw [hsleeps] at hy
    rw [hup] at hu
    rcases h.asleep y c' hy hu with hm | ⟨z, hz⟩
    · by_cases hc : c' = c
      · subst hc
        rw [hl] at hm
        rcases mem_append.mp hm with hm | hm
        · exact Or.inr ⟨x, by rw [hat, Pc.toNotify_notifying]; exact hm⟩
        · exact Or.inl (by rw [update_self]; exact hm)
      · exact Or.inl (by rw [update_of_ne hc]; exact hm)
    · have hzx : z ≠ x := by
        intro e
        subst e
        rw [hp] at hz; cases hz
      exact Or.inr ⟨z, by rw [hother z hzx]; exact hz⟩

/-- The lists after the `Waiter` of `x` was linked. -/
theorem ListInv.threads_link (h : ListInv list σ) (hx : ∀ c', x ∉ list c') (c' : C) :
    Represents (linkCond σ x c).condWaiter.next ((linkCond σ x c).cond c').waiters
      (update list c (list c ++ [x]) c') := by
  by_cases hc : c' = c
  · subst hc
    simpa [linkCond] using (h.threads c').push (hx c')
  · simp only [linkCond, update_of_ne hc]
    refine (h.threads c').congr (fun y hy => ?_)
    refine (h.threads c).pushNext_of_notMem (fun hy' => hc ?_) (fun e => hx c' (e ▸ hy))
    -- nobody is on two lists
    have h1 := (h.listed c' y hy).1
    rw [(h.listed c y hy').1] at h1
    exact (Option.some.inj h1).symm

theorem ListInv.link (h : ListInv list σ) {m : S} (hp : σ.pc x = .run) :
    ListInv (update list c (list c ++ [x])) ((linkCond σ x c).setPc x (.waitSleep c m)) := by
  obtain ⟨σ₁, hσ1⟩ : ∃ σ₁, σ₁ = (linkCond σ x c).setPc x (.waitSleep c m) := ⟨_, rfl⟩
  have hother : ∀ y, y ≠ x → σ₁.pc y = σ.pc y := fun y hy => by
    rw [hσ1]; exact σ.setPc_of_ne hy _
  have hat : σ₁.pc x = .waitSleep c m := by rw [hσ1, State.setPc_self]
  have hnone : (σ.pc x).sleepsOn = none := by rw [hp]; rfl
  have hview : ∀ {α : Type} (f : Pc S C → α), f (.waitSleep c m) = f .run →
      ∀ y, f (σ₁.pc y) = f (σ.pc y) := fun f hf y => by
    rw [hσ1]; exact (linkCond σ x c).view_setPc f (hf.trans (by rw [← hp]; rfl)) y
  have htaken := hview Pc.taken rfl
  have hup : ∀ y, y ≠ x → σ₁.condWaiter.up y = σ.condWaiter.up y := fun y hy => by
    rw [hσ1]; exact update_of_ne hy ..
  have hne : ∀ y z, y ∈ (σ.pc z).taken → y ≠ x := fun y z hy e =>
    h.not_taken hnone z (e ▸ hy)
  have hmem : ∀ c' y, y ∈ update list c (list c ++ [x]) c' → y ≠ x → y ∈ list c' := by
    intro c' y hy hyx
    by_cases hc : c' = c
    · subst hc
      rw [update_self] at hy
      rcases mem_append.mp hy with hy | hy
      · exact hy
      · exact absurd (mem_singleton.mp hy) hyx
    · rwa [update_of_ne hc] at hy
  rw [← hσ1]
  refine ⟨?_, ?_, ?_, ?_, ?_, ?_, ?_, ?_, ?_⟩
  · rw [hσ1]
    exact h.threads_link (h.not_listed hnone)
  · intro c' y hy
    by_cases hyx : y = x
    · subst hyx
      have hc : c' = c := by
        by_contra hc
        rw [update_of_ne hc] at hy
        exact h.not_listed hnone c' hy
      subst hc
      exact ⟨by rw [hat]; rfl, by rw [hσ1]; exact update_self ..⟩
    · rw [hother y hyx, hup y hyx]
      exact h.listed c' y (hmem c' y hy hyx)
  · intro c' y hy z
    rw [htaken]
    by_cases hyx : y = x
    · subst hyx; exact h.not_taken hnone z
    · exact h.untaken c' y (hmem c' y hy hyx) z
  · intro y z hy
    rw [htaken] at hy
    rw [hother y (hne y z hy)]
    exact h.taken y z hy
  · intro y z z'
    rw [htaken, htaken]; exact h.taken_once y z z'
  · intro y
    rw [htaken]; exact h.taken_nodup y
  · intro y z hy
    rw [hview Pc.toNotify rfl] at hy
    rw [hup y (hne y z (Pc.mem_taken.mpr (Or.inr hy)))]
    exact h.not_up y z hy
  · intro y z hy
    rw [hview Pc.waking rfl] at hy
    rw [hup y (hne y z (Pc.mem_taken.mpr (Or.inl hy)))]
    exact h.up y z hy
  · intro y c' hy hu
    by_cases hyx : y = x
    · subst hyx
      rw [hat] at hy
      obtain rfl : c = c' := Option.some.inj hy
      exact Or.inl (by rw [update_self]; simp)
    · rw [hother y hyx] at hy
      rw [hup y hyx] at hu
      simp only [hview Pc.toNotify rfl]
      refine (h.asleep y c' hy hu).imp_left fun hl => ?_
      by_cases hc : c' = c
      · subst hc; rw [update_self]; exact mem_append_left _ hl
      · rwa [update_of_ne hc]

end Flix.Sync

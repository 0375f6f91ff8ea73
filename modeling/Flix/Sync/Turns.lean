import Flix.Sync.Mutex

/-!
# How long a `down` waits

Permits are granted in the order of arrival, and an `up` that finds a waiter hands it the
permit. So the number of waiters in front decides how many `up`s it takes until a waiter
has its permit, whoever runs in the meantime and whatever else comes in.
-/

namespace Flix.Sync

open Function Fifo Runs

variable {S C : Type} {σ σ₁ σ' : State S C} {x : Ctx} {s : S}

/-- What the steps between two states have made of `s`: no arrival is forgotten, and every
`up` has become a permit, granted or free. -/
structure Tally (s : S) (σ σ' : State S C) : Prop where
  arrivals : σ.ghost.arrivals s <+: σ'.ghost.arrivals s
  permits : (σ'.ghost.grants s).length + (σ'.sem s).count + σ.ghost.ups s
    = (σ.ghost.grants s).length + (σ.sem s).count + σ'.ghost.ups s

theorem Tally.trans (h : Tally s σ σ₁) (h' : Tally s σ₁ σ') : Tally s σ σ' := by
  refine ⟨h.arrivals.trans h'.arrivals, ?_⟩
  have hfirst := h.permits
  have hthen := h'.permits
  omega

theorem SameSem.tally (h : SameSem σ σ') : Tally s σ σ' := by
  refine ⟨by rw [h.arrivals], ?_⟩
  rw [h.grants, h.sem, h.ups]

variable [DecidableEq S]

theorem tally_down {s' : S} {r : Bool} (e : down σ x s' r = some σ') : Tally s σ σ' := by
  obtain ⟨hc, rfl⟩ | ⟨t, _, _, rfl⟩ := down_cases e
  · by_cases hs : s = s'
    · subst hs
      refine ⟨by simp [finishDown, takePermit, Ghost.return, Ghost.grant, Ghost.arrive], ?_⟩
      simp only [finishDown, takePermit, Ghost.return, Ghost.grant, Ghost.arrive, update_self,
        length_append, List.length_singleton]
      omega
    · constructor <;>
        simp [finishDown, takePermit, Ghost.return, Ghost.grant, Ghost.arrive, update_of_ne hs]
  · by_cases hs : s = s'
    · subst hs
      constructor <;> simp [linkSem, prepareMeForSleep, State.setPc, Ghost.arrive]
    · constructor <;>
        simp [linkSem, prepareMeForSleep, State.setPc, Ghost.arrive, update_of_ne hs]

theorem tally_up {s' : S} (hb : (σ.sem s).count + 1 < 2 ^ 32) (e : up σ x s' = some σ') :
    Tally s σ σ' := by
  obtain ⟨_, rfl⟩ | ⟨w, t, _, _, rfl⟩ := up_cases e
  · by_cases hs : s = s'
    · subst hs
      refine ⟨by simp [giveBack, Ghost.release], ?_⟩
      simp only [giveBack, Ghost.release, update_self, Nat.mod_eq_of_lt hb]
      omega
    · constructor <;> simp [giveBack, Ghost.release, update_of_ne hs]
  · by_cases hs : s = s'
    · subst hs
      refine ⟨by simp [handOver, wakeUpTask, Ghost.release, Ghost.grant], ?_⟩
      simp only [handOver, wakeUpTask, Ghost.release, Ghost.grant, update_self, length_append,
        List.length_singleton]
      omega
    · constructor <;> simp [handOver, wakeUpTask, Ghost.release, Ghost.grant, update_of_ne hs]

variable [DecidableEq C] {a : Action S C}

theorem tally_step (hok : CountOk σ a) (hs : step σ a = some σ') : Tally s σ σ' := by
  cases semStep_step hs with
  | none hsame => exact hsame.tally
  | down x s' r σ₁ _ hsame _ e => exact hsame.tally.trans (tally_down e)
  | up x s' σ₁ σ2 _ hsame e hsame' =>
    have hb : (σ₁.sem s).count + 1 < 2 ^ 32 := by rw [hsame.sem]; exact hok s
    exact (hsame.tally.trans (tally_up hb e)).trans hsame'.tally
  | finish x s' r _ _ e =>
    rw [e]
    constructor <;> simp [finishDown, Ghost.return]

theorem tally_reach (h : Reach step CountOk σ σ') : Tally s σ σ' :=
  h.invariant (I := Tally s σ) ⟨List.prefix_rfl, rfl⟩ fun _ _ _ hc hok hs =>
    hc.trans (tally_step hok hs)

/-- **A waiter has its permit in time.** From any state that any interleaving reaches, the waiter
with `i` others in front of it is given the permit after `i` others, and has it as soon as there
have been more than `i` calls of `up`. -/
theorem waiter_gets_permit {n : S → Nat} {garbage : C → Nat} {tasks : List Tid} {l : List Ctx}
    {i : Nat} (h : Reach step CountOk (init n garbage tasks) σ) (h' : Reach step CountOk σ σ')
    (hl : Represents σ.semWaiter.next (σ.sem s).waiters l) (hx : l[i]? = some x)
    (hups : σ.ghost.ups s + i < σ'.ghost.ups s) :
    (σ'.ghost.grants s)[(σ.ghost.grants s).length + i]? = some x := by
  obtain ⟨l1, hl1, -, hfifo⟩ := (semaphoreSafe_reachable h s).fifo
  obtain rfl := hl.unique hl1
  have hsafe := semaphoreSafe_reachable (h.trans h') s
  obtain ⟨l', hl', -, hfifo'⟩ := hsafe.fifo
  obtain ⟨⟨later, hlater⟩, hpermits⟩ := tally_reach (s := s) h'
  have hi : i < l.length := (List.getElem?_eq_some_iff.mp hx).1
  -- either nobody waits any more, or every `up` since has granted a permit
  have hlen : (σ.ghost.grants s).length + i < (σ'.ghost.grants s).length := by
    rcases Nat.eq_zero_or_pos (σ'.sem s).count with hzero | hpos
    · omega
    · have hnil := hl'.first_none.mp (hsafe.free hpos)
      have hall := congrArg List.length (hlater.trans hfifo')
      rw [hfifo, hnil, append_nil] at hall
      simp only [length_append] at hall
      omega
  have hat := congrArg (·[(σ.ghost.grants s).length + i]?) (hlater.trans hfifo')
  rw [hfifo, append_assoc] at hat
  simp only [List.getElem?_append_left hlen] at hat
  rw [← hat, List.getElem?_append_right (Nat.le_add_right _ _), Nat.add_sub_cancel_left,
    List.getElem?_append_left hi, hx]

theorem waiter_gets_permit_contendedRun : ∃ σ σ' : State Unit Unit,
    Represents σ.semWaiter.next (σ.sem ()).waiters [.task 2] ∧
      (σ'.ghost.grants ())[(σ.ghost.grants ()).length]? = some (.task 2) := by
  have hrun : ((guardedRun step CountOk (init (fun _ => 1) (fun _ => 0) [1, 2] : State Unit Unit)
      (contendedRun.take 5)).bind fun σ =>
        (guardedRun step CountOk σ (contendedRun.drop 5)).map (σ, ·)).map
      (fun p => ((p.1.sem ()).waiters, p.1.semWaiter.next (.task 2), p.1.ghost.ups (),
        p.2.ghost.ups ())) = some (⟨some (.task 2), some (.task 2)⟩, none, 0, 1) := by decide
  obtain ⟨⟨σ, σ'⟩, hp, hfacts⟩ := map_eq_some_iff.mp hrun
  obtain ⟨_, hfirst, hp⟩ := of_bind hp
  obtain ⟨_, hsecond, heq⟩ := map_eq_some_iff.mp hp
  cases heq
  obtain ⟨hw, hn, hu, hu'⟩ := by simpa only [Prod.mk.injEq] using hfacts
  have hl : Represents σ.semWaiter.next (σ.sem ()).waiters [.task 2] :=
    ⟨by rw [hw]; rfl, by rw [hw]; rfl, ⟨hn, trivial⟩, by simp⟩
  exact ⟨σ, σ', hl, waiter_gets_permit (i := 0) (Reach.of_guardedRun hfirst)
    (Reach.of_guardedRun hsecond) hl rfl (by omega)⟩

end Flix.Sync

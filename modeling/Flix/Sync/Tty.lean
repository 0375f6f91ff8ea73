import Flix.Sync.WakeUp

/-!
# The keyboard interrupt and the terminal

`Keyboard::handleInterrupt` passes each character to `Tty::feedInput`, which
locks the mutex of the terminal and, when its queue grows or shrinks, the mutex
of the heap: blocking mutexes, taken on behalf of whatever task was running. If
that task is inside `Tty::readInto`, it holds the mutex itself, and waits for
itself from then on. If no task was running, a taken mutex makes
`Semaphore::down` fail its assertion that there is an active task.

None of this happens when a key is pressed only while the interrupted task
neither holds nor queues for a mutex the handler is going to take, and while
these are free if no task is active (`keyboard_handler_safe`).
-/

namespace Flix.Sync

open Function Fifo Runs

/-! ## What a step leaves alone -/

section
variable {S C : Type} [DecidableEq S]

variable {σ σ' : State S C} {x y : Ctx} {s : S} {a : Action S C}

theorem up_handler (h : up σ x s = some σ') : σ'.handler = σ.handler := by
  obtain ⟨_, rfl⟩ | ⟨w, t, _, _, rfl⟩ := up_cases h <;> rfl

theorem down_other {r : Bool} (h : down σ x s r = some σ') :
    (∀ y, y ≠ x → σ'.pc y = σ.pc y) ∧ σ'.handler = σ.handler := by
  obtain ⟨_, rfl⟩ | ⟨t, _, _, rfl⟩ := down_cases h
  · exact ⟨fun _ hy => update_of_ne hy .., rfl⟩
  · exact ⟨fun _ hy => State.setPc_of_ne _ hy _, rfl⟩

theorem waitRound_other {c : C} {m : S} (h : waitRound σ x c m = some σ') :
    (∀ y, y ≠ x → σ'.pc y = σ.pc y) ∧ σ'.handler = σ.handler := by
  obtain ⟨t, σ1, _, hu, rfl⟩ := waitRound_inv h
  constructor
  · intro y hy
    rw [State.setPc_of_ne _ hy, up_pc hu]; rfl
  · show σ1.handler = _
    rw [up_handler hu]; rfl

theorem advance_other {next : Option Tid} (h : advance σ x next = some σ') :
    (∀ y, y ≠ x → σ'.pc y = σ.pc y)
      ∧ (σ'.handler = σ.handler ∨ σ'.handler = update σ.handler x none) := by
  have hset : ∀ (σ1 : State S C) (p : Pc S C), σ1.pc = σ.pc → ∀ y, y ≠ x →
      (σ1.setPc x p).pc y = σ.pc y := fun σ1 p e y hy => by rw [σ1.setPc_of_ne hy, e]
  cases advance_cases h with
  | leave => exact ⟨fun _ _ => rfl, Or.inr rfl⟩
  | finish => exact ⟨fun _ hy => update_of_ne hy .., Or.inl rfl⟩
  | round c m _ _ e => exact (waitRound_other e).imp_right Or.inl
  | lock m _ e => exact (down_other e).imp_right Or.inl
  | _ => exact ⟨hset _ _ rfl, Or.inl rfl⟩

variable [DecidableEq C]

theorem call_other {op : Call S C} (h : call σ x op = some σ') :
    (∀ y, y ≠ x → σ'.pc y = σ.pc y) ∧ σ'.handler = σ.handler := by
  cases op with
  | down s => exact down_other h
  | up s => exact ⟨fun _ _ => by rw [up_pc h], up_handler h⟩
  | wait c m =>
    obtain ⟨h1, h2⟩ := waitRound_other (wait_inv h)
    exact ⟨h1, h2⟩
  | notifyOne c =>
    obtain ⟨_, rfl⟩ | ⟨w, _, rfl⟩ := notifyOne_cases h
    · exact ⟨fun _ _ => rfl, rfl⟩
    · exact ⟨fun _ hy => State.setPc_of_ne _ hy _, rfl⟩
  | notifyAll c =>
    obtain ⟨ws, _, h⟩ := of_bind h
    cases h; exact ⟨fun _ hy => State.setPc_of_ne _ hy _, rfl⟩

/-- Only the executing context moves. -/
theorem step_pc_of_ne (hy : σ.cur ≠ some y) (h : step σ a = some σ') : σ'.pc y = σ.pc y := by
  have hne : ∀ {x : Ctx}, σ.cur = some x → y ≠ x := fun hx e => hy (by rw [e]; exact hx)
  cases a with
  | call op =>
    obtain ⟨x, k, hx, _, _, h⟩ := step_call_inv h
    exact (call_other h).1 y (hne hx)
  | advance next =>
    obtain ⟨x, hx, h⟩ := of_bind h
    exact (advance_other h).1 y (hne hx)
  | timer next =>
    obtain ⟨_, h⟩ := of_assert h
    obtain ⟨rfl, _⟩ := scheduleNext_eq h
    rfl
  | irq calls =>
    obtain ⟨_, h⟩ := of_assert h
    cases h; rfl

/-- What handlers still have to do after a step: part of what they had to do before, or all
of it if they are just starting. -/
theorem step_handler {ops : List (Call S C)}
    (h : step σ a = some σ') (hy : σ'.handler y = some ops) :
    (∃ ops0, σ.handler y = some ops0 ∧ ops <:+ ops0)
      ∨ (a = .irq ops ∧ y = σ.handlerCtx ∧ σ.interruptible = true) := by
  cases a with
  | call op =>
    obtain ⟨x, k, hx, _, ht, h⟩ := step_call_inv h
    refine Or.inl ?_
    rw [(call_other h).2] at hy
    rcases ht with ⟨_, rfl⟩ | ⟨rest, hh, rfl⟩
    · exact ⟨ops, hy, List.suffix_rfl⟩
    · have hy' : update σ.handler x (some rest) y = some ops := hy
      by_cases hyx : y = x
      · subst hyx
        rw [update_self] at hy'
        cases hy'
        exact ⟨_, hh, List.suffix_cons _ _⟩
      · rw [update_of_ne hyx] at hy'
        exact ⟨ops, hy', List.suffix_rfl⟩
  | advance next =>
    obtain ⟨x, hx, h⟩ := of_bind h
    refine Or.inl ⟨ops, ?_, List.suffix_rfl⟩
    rcases (advance_other h).2 with e | e
    · rw [← e]; exact hy
    · rw [e] at hy
      by_cases hyx : y = x
      · subst hyx; rw [update_self] at hy; cases hy
      · rwa [update_of_ne hyx] at hy
  | timer next =>
    obtain ⟨_, h⟩ := of_assert h
    obtain ⟨rfl, _⟩ := scheduleNext_eq h
    exact Or.inl ⟨ops, hy, List.suffix_rfl⟩
  | irq calls =>
    obtain ⟨hint, h⟩ := of_assert h
    cases h
    by_cases hyx : y = σ.handlerCtx
    · have hy' : update σ.handler σ.handlerCtx (some calls) y = some ops := hy
      rw [hyx, update_self] at hy'
      cases hy'
      exact Or.inr ⟨rfl, hyx, hint⟩
    · have hy' : update σ.handler σ.handlerCtx (some calls) y = some ops := hy
      rw [update_of_ne hyx] at hy'
      exact Or.inl ⟨ops, hy', List.suffix_rfl⟩

/-- Who gets to hold a semaphore in a step: the executing context, or a waiter. -/
theorem held_step {waiting pending : S → List Ctx}
    (hi : SemInv waiting pending σ) (h : step σ a = some σ') (hy : y ∈ σ'.ghost.held s) :
    y ∈ σ.ghost.held s ∨ σ.cur = some y ∨ (σ.pc y).downOn = some s := by
  cases semStep_step h with
  | none hsame => exact Or.inl (hsame.held ▸ hy)
  | down x s' r σ1 hc hsame hx e =>
    obtain ⟨_, rfl⟩ | ⟨t, _, _, rfl⟩ := down_cases e
    · simp only [finishDown, takePermit, Ghost.return, Ghost.grant] at hy
      by_cases hs : s = s'
      · subst hs
        rw [update_self] at hy
        rcases mem_cons.mp hy with rfl | hy
        · exact Or.inr (Or.inl hc)
        · exact Or.inl (hsame.held ▸ hy)
      · rw [update_of_ne hs] at hy
        exact Or.inl (hsame.held ▸ hy)
    · exact Or.inl (hsame.held ▸ hy)
  | up x s' σ1 σ2 _ hsame e hsame' =>
    rw [hsame'.held] at hy
    obtain ⟨_, rfl⟩ | ⟨w, t, hf, _, rfl⟩ := up_cases e
    · simp only [giveBack, Ghost.release] at hy
      by_cases hs : s = s'
      · subst hs
        rw [update_self] at hy
        exact Or.inl (hsame.held ▸ List.mem_of_mem_erase hy)
      · rw [update_of_ne hs] at hy
        exact Or.inl (hsame.held ▸ hy)
    · simp only [handOver, wakeUpTask, Ghost.release, Ghost.grant] at hy
      by_cases hs : s = s'
      · subst hs
        rw [update_self, update_self] at hy
        rcases mem_cons.mp hy with rfl | hy
        · rw [hsame.sem] at hf
          obtain ⟨l, hl⟩ := (hi.threads s).of_first hf
          exact Or.inr (Or.inr ((hi.mem_waiting s y).mp (by rw [hl]; exact mem_cons_self)).1)
        · exact Or.inl (hsame.held ▸ List.mem_of_mem_erase hy)
      · rw [update_of_ne hs, update_of_ne hs] at hy
        exact Or.inl (hsame.held ▸ hy)
  | finish x s' r _ _ e =>
    rw [e] at hy
    exact Or.inl hy

end

/-! ## The handler -/

/-- The mutexes of the terminal and of the heap. -/
inductive TtyLock where
  | tty
  | heap
  deriving DecidableEq

/-- How often the handler of one key uses the heap. It depends on how full the blocks of the
terminal's queue are, and on how many tasks wait for a line. -/
structure HeapUse where
  /-- `Tty::getCurrent` creates the terminal. -/
  create : Nat
  /-- `push_back` and `pop_back`. -/
  queue : Nat
  /-- `notify_all` reserves room for the waiters before it locks anything. -/
  reserve : Nat
  /-- It frees that room at its end. -/
  release : Nat

/-- `kmalloc` and `kfree` hold the mutex of the heap throughout. -/
def heapCalls (n : Nat) : List (Call TtyLock Unit) :=
  (List.replicate n [Call.down TtyLock.heap, Call.up TtyLock.heap]).flatten

/-- `Tty::feedInput`. -/
def feedInput (data : Char) (u : HeapUse) : List (Call TtyLock Unit) :=
  .down .tty :: (heapCalls u.queue
    ++ ((if data = '\n' then heapCalls u.reserve ++ .notifyAll () :: heapCalls u.release else [])
      ++ [.up .tty]))

/-- `Keyboard::handleInterrupt`, for a key that types `data` or types nothing. -/
def handleInterrupt (key : Option Char) (u : HeapUse) : List (Call TtyLock Unit) :=
  match key with
  | none => []
  | some data => heapCalls u.create ++ feedInput data u

/-- The interrupted task neither holds nor queues for a mutex the handler is going to take;
if no task is active, these mutexes are free. -/
def SafeToInterrupt (σ : State TtyLock Unit) (calls : List (Call TtyLock Unit)) : Prop :=
  ∀ s, .down s ∈ calls →
    match σ.active with
    | some t => .task t ∉ σ.ghost.held s ∧ (σ.pc (.task t)).downOn ≠ some s
    | none => 0 < (σ.sem s).count

/-- Interrupts come from the keyboard. -/
def FromKeyboard (_ : State TtyLock Unit) : Action TtyLock Unit → Prop
  | .irq calls => ∃ key u, calls = handleInterrupt key u
  | _ => True

/-- They come when it is safe to. -/
def SafelyTimed (σ : State TtyLock Unit) : Action TtyLock Unit → Prop
  | .irq calls => SafeToInterrupt σ calls
  | _ => True

/-- A handler about to lock a mutex: the task it interrupted does not hold it, and if there
is no task, it is free. -/
def HandlerSafe (σ : State TtyLock Unit) : Prop :=
  ∀ x s rest, σ.cur = some x → σ.pc x = .run → σ.handler x = some (.down s :: rest) →
    (∀ t, x = .irq t → .task t ∉ σ.ghost.held s) ∧ (x = .idleIrq → 0 < (σ.sem s).count)

/-! ## On an idle processor -/

/-- The counts allow all these calls to go through without contention or overflow. -/
def Enough : (TtyLock → Nat) → List (Call TtyLock Unit) → Prop
  | _, [] => True
  | n, .down s :: r => 0 < n s ∧ Enough (update n s (n s - 1)) r
  | n, .up s :: r => n s + 1 < 2 ^ 32 ∧ Enough (update n s (n s + 1)) r
  | n, _ :: r => Enough n r

theorem enough_heapCalls {n : TtyLock → Nat} {r : List (Call TtyLock Unit)} (hr : Enough n r) :
    ∀ k : Nat, (k ≠ 0 → 0 < n .heap ∧ n .heap < 2 ^ 32) → Enough n (heapCalls k ++ r)
  | 0, _ => hr
  | k + 1, h => by
    obtain ⟨h1, h2⟩ := h (by omega)
    have hrest : Enough n (heapCalls k ++ r) := enough_heapCalls hr k fun _ => ⟨h1, h2⟩
    have hsame : update (update n .heap (n .heap - 1)) .heap (n .heap - 1 + 1) = n := by
      rw [update_idem, Nat.sub_add_cancel h1, update_eq_self]
    refine ⟨h1, ?_, ?_⟩
    · rw [update_self]; omega
    · rw [update_self, hsame]; exact hrest

theorem down_heap_mem_heapCalls {k : Nat} (h : k ≠ 0) :
    .down .heap ∈ heapCalls k := by
  obtain ⟨j, rfl⟩ := Nat.exists_eq_succ_of_ne_zero h
  exact mem_cons_self

/-- The handler goes through if what it is going to lock is free. -/
theorem enough_handleInterrupt {n : TtyLock → Nat} {key : Option Char} {u : HeapUse}
    (h : ∀ s, .down s ∈ handleInterrupt key u → 0 < n s ∧ n s < 2 ^ 32) :
    Enough n (handleInterrupt key u) := by
  cases key with
  | none => trivial
  | some data =>
    have hmem : ∀ {s}, .down s ∈ feedInput data u → 0 < n s ∧ n s < 2 ^ 32 := fun hs =>
      h _ (mem_append_right _ hs)
    refine enough_heapCalls ?_ _ fun hk =>
      h _ (mem_append_left _ (down_heap_mem_heapCalls hk))
    obtain ⟨h1, h2⟩ := hmem mem_cons_self
    refine ⟨h1, ?_⟩
    have hheap : update n .tty (n .tty - 1) .heap = n .heap := update_of_ne (by decide) ..
    have hend : Enough (update n .tty (n .tty - 1)) [.up .tty] := by
      refine ⟨?_, trivial⟩
      rw [update_self]; omega
    refine enough_heapCalls ?_ _ fun hk => ?_
    · split
      · rename_i hd
        rw [append_assoc]
        refine enough_heapCalls ?_ _ fun hk => ?_
        · refine enough_heapCalls hend _ fun hk => ?_
          refine hmem (mem_cons_of_mem _ (mem_append_right _
            (mem_append_left _ ?_)))
          rw [if_pos hd]
          exact mem_append_right _ (mem_cons_of_mem _ (down_heap_mem_heapCalls hk))
        · rw [hheap]
          refine hmem (mem_cons_of_mem _ (mem_append_right _
            (mem_append_left _ ?_)))
          rw [if_pos hd]
          exact mem_append_left _ (down_heap_mem_heapCalls hk)
      · exact hend
    · rw [hheap]
      exact hmem (mem_cons_of_mem _ (mem_append_left _ (down_heap_mem_heapCalls hk)))

theorem mem_heapCalls {k : Nat} {op : Call TtyLock Unit} (h : op ∈ heapCalls k) :
    k ≠ 0 ∧ (op = .down .heap ∨ op = .up .heap) := by
  obtain ⟨l, hl, hop⟩ := List.mem_flatten.mp h
  obtain ⟨hk, rfl⟩ := List.mem_replicate.mp hl
  exact ⟨hk, by simpa using hop⟩

theorem down_mem_of_up_mem {key : Option Char} {u : HeapUse} {s : TtyLock}
    (h : .up s ∈ handleInterrupt key u) : .down s ∈ handleInterrupt key u := by
  have hheap : ∀ {k}, .up s ∈ heapCalls k → .down s ∈ heapCalls k := by
    intro k hk
    obtain ⟨h0, e | e⟩ := mem_heapCalls hk <;> cases e
    exact down_heap_mem_heapCalls h0
  cases key with
  | none => cases h
  | some data =>
    rcases mem_append.mp h with h | h
    · exact mem_append_left _ (hheap h)
    refine mem_append_right _ ?_
    cases s with
    | tty => exact mem_cons_self
    | heap =>
      refine mem_cons_of_mem _ ?_
      rcases mem_cons.mp h with e | h
      · cases e
      rcases mem_append.mp h with h | h
      · exact mem_append_left _ (hheap h)
      rcases mem_append.mp h with h | h
      · refine mem_append_right _ (mem_append_left _ ?_)
        split at h
        · rename_i hd
          rw [if_pos hd]
          rcases mem_append.mp h with h | h
          · exact mem_append_left _ (hheap h)
          · rcases mem_cons.mp h with e | h
            · cases e
            · exact mem_append_right _ (mem_cons_of_mem _ (hheap h))
        · cases h
      · cases mem_singleton.mp h

/-- A handler on an idle processor: nobody else runs, and it will not meet a taken mutex. -/
structure IdleInv (σ : State TtyLock Unit) (ops : List (Call TtyLock Unit)) : Prop where
  active : σ.active = none
  place : (σ.pc .idleIrq).blocks = false
  enough : Enough (fun s => (σ.sem s).count) ops
  free : ∀ s, .down s ∈ ops ∨ .up s ∈ ops → (σ.sem s).waiters.first = none

variable {σ σ' : State TtyLock Unit}

variable {ops : List (Call TtyLock Unit)} {S C : Type} {a : Action TtyLock Unit}

/-- What follows does not depend on anything but the counts and the lists. -/
theorem IdleInv.of_same {ops' : List (Call TtyLock Unit)} (h : IdleInv σ ops)
    (ha : σ'.active = σ.active) (hp : (σ'.pc .idleIrq).blocks = false) (hsem : σ'.sem = σ.sem)
    (he : Enough (fun s => (σ.sem s).count) ops') (hsub : ∀ op ∈ ops', op ∈ ops) :
    IdleInv σ' ops' where
  active := ha.trans h.active
  place := hp
  enough := by rw [hsem]; exact he
  free s hs := by rw [hsem]; exact h.free s (hs.imp (hsub _) (hsub _))

theorem idleInv_call {op : Call TtyLock Unit} {rest : List (Call TtyLock Unit)}
    (h : IdleInv σ (op :: rest)) (hs : call σ .idleIrq op = some σ') : IdleInv σ' rest := by
  have hsub : ∀ o ∈ rest, o ∈ op :: rest := fun o ho => mem_cons_of_mem _ ho
  cases op with
  | down s =>
    obtain ⟨hc, he⟩ := h.enough
    obtain ⟨_, rfl⟩ | ⟨t, hz, _, _⟩ := down_cases hs
    · refine ⟨h.active, by simp [finishDown, Pc.blocks], ?_, fun s' hs' => ?_⟩
      · convert he using 2
        rename_i s'
        by_cases hss : s' = s
        · subst hss; simp [finishDown, takePermit]
        · simp [finishDown, takePermit, update_of_ne hss]
      · have := h.free s' (hs'.imp (hsub _) (hsub _))
        by_cases hss : s' = s
        · subst hss; simpa [finishDown, takePermit] using this
        · simpa [finishDown, takePermit, update_of_ne hss] using this
    · have : 0 < (σ.sem s).count := hc
      omega
  | up s =>
    obtain ⟨hb, he⟩ := h.enough
    have hf := h.free s (Or.inr mem_cons_self)
    obtain ⟨_, rfl⟩ | ⟨w, t, hw, _, _⟩ := up_cases hs
    · refine ⟨h.active, h.place, ?_, fun s' hs' => ?_⟩
      · convert he using 2
        rename_i s'
        by_cases hss : s' = s
        · subst hss
          simp only [giveBack, update_self]
          exact Nat.mod_eq_of_lt hb
        · simp [giveBack, update_of_ne hss]
      · have := h.free s' (hs'.imp (hsub _) (hsub _))
        by_cases hss : s' = s
        · subst hss; simpa [giveBack] using this
        · simpa [giveBack, update_of_ne hss] using this
    · rw [hf] at hw; cases hw
  | wait c m =>
    obtain ⟨hne, _⟩ := of_assert hs
    exact absurd h.active hne
  | notifyOne c =>
    obtain ⟨_, rfl⟩ | ⟨w, _, rfl⟩ := notifyOne_cases hs
    · exact h.of_same rfl h.place rfl h.enough hsub
    · exact h.of_same rfl (by rw [State.setPc_self]; simp) rfl h.enough hsub
  | notifyAll c =>
    obtain ⟨ws, _, hs⟩ := of_bind hs
    cases hs
    exact h.of_same rfl (by rw [State.setPc_self]; simp) rfl h.enough hsub

theorem idleInv_advance {next : Option Tid} (h : IdleInv σ ops)
    (hs : advance σ .idleIrq next = some σ') :
    (σ'.pc .idleIrq).blocks = false ∧ (σ'.handler .idleIrq = some ops → IdleInv σ' ops) := by
  have hstay : ∀ (σ1 : State TtyLock Unit) (p : Pc TtyLock Unit), σ1.active = σ.active →
      σ1.sem = σ.sem → p.blocks = false → ((σ1.setPc .idleIrq p).pc .idleIrq).blocks = false
        ∧ ((σ1.setPc .idleIrq p).handler .idleIrq = some ops → IdleInv (σ1.setPc .idleIrq p) ops) :=
    fun σ1 p ha hsem hp => by
      exact ⟨hp, fun _ => h.of_same ha (by rw [State.setPc_self]; exact hp) hsem h.enough
        fun _ => id⟩
  -- a place that blocks is none of the handler's
  have hno : ∀ {p}, σ.pc .idleIrq = p → p.blocks ≠ true := fun hp e => by
    have hb := h.place
    rw [hp, e] at hb; cases hb
  have hnap : ∀ {p saved woken : Pc TtyLock Unit}, Naps p saved woken →
      p.blocks = true ∧ saved.blocks = true := fun hn => by cases hn <;> exact ⟨rfl, rfl⟩
  cases advance_cases hs with
  | leave n =>
    have hnone : update σ.handler .idleIrq none .idleIrq = none := update_self ..
    exact ⟨h.place, fun ho => by cases hnone.symm.trans ho⟩
  | save hn hp => exact absurd (hnap hn).1 (hno hp)
  | wake hn hp =>
    rcases hp with hp | ⟨hp, _⟩
    · exact absurd (hnap hn).2 (hno hp)
    · exact absurd (hnap hn).1 (hno hp)
  | finish s r hp => exact absurd rfl (hno hp)
  | again s r t hp => exact absurd rfl (hno hp)
  | trigger c m hp => exact absurd rfl (hno hp)
  | round c m hp => exact absurd rfl (hno hp)
  | lock m hp => exact absurd rfl (hno hp)
  | notified => exact hstay _ _ rfl rfl rfl
  | setUp => exact hstay _ _ rfl rfl rfl
  | wakeUp => exact hstay _ _ rfl rfl (by simp)

theorem State.cur_idleIrq {σ : State S C} {ops : List (Call S C)}
    (ha : σ.active = none) (ho : σ.handler .idleIrq = some ops) : σ.cur = some .idleIrq := by
  unfold State.cur
  rw [ha, ho]; rfl

theorem idleInv_step
    (h : IdleInv σ ops) (ho : σ.handler .idleIrq = some ops) (hs : step σ a = some σ') :
    (σ'.pc .idleIrq).blocks = false
      ∧ ∀ ops', σ'.handler .idleIrq = some ops' → IdleInv σ' ops' := by
  have hcur := State.cur_idleIrq h.active ho
  have hint : σ.interruptible = false := by unfold State.interruptible; rw [hcur]
  cases a with
  | call op =>
    obtain ⟨x, k, hx, _, hk, hs⟩ := step_call_inv hs
    obtain rfl : Ctx.idleIrq = x := mem_unique hcur hx
    rcases hk with ⟨hn, _⟩ | ⟨rest, hr, rfl⟩
    · rw [ho] at hn; cases hn
    · rw [ho] at hr
      cases hr
      have h' : IdleInv σ' rest :=
        idleInv_call (σ := { σ with handler := update σ.handler .idleIrq (some rest) })
          { h with } hs
      refine ⟨h'.place, fun ops' ho' => ?_⟩
      rw [(call_other hs).2] at ho'
      have hsome : update σ.handler .idleIrq (some rest) .idleIrq = some rest := update_self ..
      cases hsome.symm.trans ho'
      exact h'
  | advance next =>
    obtain ⟨x, hx, hs⟩ := of_bind hs
    obtain rfl : Ctx.idleIrq = x := mem_unique hcur hx
    obtain ⟨hplace, hidle⟩ := idleInv_advance h hs
    refine ⟨hplace, fun ops' ho' => ?_⟩
    have hops : ops = ops' := by
      rcases (advance_other hs).2 with e | e
      · rw [e, ho] at ho'; exact Option.some.inj ho'
      · rw [e] at ho'; cases ho'
    subst hops
    exact hidle ho'
  | timer next =>
    obtain ⟨hi, _⟩ := of_assert hs
    rw [hint] at hi; cases hi
  | irq calls =>
    obtain ⟨hi, _⟩ := of_assert hs
    rw [hint] at hi; cases hi

/-! ## Over every run -/

/-- What holds between the handlers and the tasks they interrupt. -/
structure TtyInv (σ : State TtyLock Unit) : Prop where
  lists : ∃ waiting pending, SemInv waiting pending σ
  /-- Counts are 32-bit. -/
  typed : ∀ s, (σ.sem s).count < 2 ^ 32
  /-- What a handler still has to lock, its task neither holds nor queues for. -/
  onTask : ∀ t ops, σ.handler (.irq t) = some ops → ∀ s, .down s ∈ ops →
    .task t ∉ σ.ghost.held s ∧ (σ.pc (.task t)).downOn ≠ some s
  idlePlace : (σ.pc .idleIrq).blocks = false
  onIdle : ∀ ops, σ.handler .idleIrq = some ops → IdleInv σ ops

theorem count_step [DecidableEq S] [DecidableEq C] {σ σ' : State S C}
    {a : Action S C} (h : ∀ s, (σ.sem s).count < 2 ^ 32) (hs : step σ a = some σ') (s : S) :
    (σ'.sem s).count < 2 ^ 32 := by
  cases semStep_step hs with
  | none hsame => rw [hsame.sem]; exact h s
  | down x s' r σ1 _ hsame _ e =>
    have h1 := hsame.sem ▸ h s
    obtain ⟨_, rfl⟩ | ⟨t, _, _, rfl⟩ := down_cases e <;> by_cases hss : s = s'
    · subst hss
      simp only [finishDown, takePermit, update_self]; omega
    · simpa [finishDown, takePermit, update_of_ne hss] using h1
    · subst hss; simpa [linkSem, prepareMeForSleep, State.setPc] using h1
    · simpa [linkSem, prepareMeForSleep, State.setPc, update_of_ne hss] using h1
  | up x s' σ1 σ2 _ hsame e hsame' =>
    have h1 := hsame.sem ▸ h s
    rw [hsame'.sem]
    obtain ⟨_, rfl⟩ | ⟨w, t, _, _, rfl⟩ := up_cases e <;> by_cases hss : s = s'
    · subst hss
      simp only [giveBack, update_self]; omega
    · simpa [giveBack, update_of_ne hss] using h1
    · subst hss; simpa [handOver, wakeUpTask] using h1
    · simpa [handOver, wakeUpTask, update_of_ne hss] using h1
  | finish x s' r _ _ e => rw [e]; exact h s

/-- While a handler runs on a task, the task itself does not. -/
theorem State.cur_ne_task {σ : State S C} {t : Tid} {ops : List (Call S C)}
    (ho : σ.handler (.irq t) = some ops) : σ.cur ≠ some (.task t) := by
  intro hcur
  have ha : σ.active = some t := State.cur_tid hcur
  unfold State.cur at hcur
  rw [ha] at hcur
  simp [ho] at hcur

theorem ttyInv_onTask (h : TtyInv σ) (hok : SafelyTimed σ a) (hs : step σ a = some σ') {t : Tid}
    (ho : σ'.handler (.irq t) = some ops) {s : TtyLock} (hd : .down s ∈ ops) :
    .task t ∉ σ'.ghost.held s ∧ (σ'.pc (.task t)).downOn ≠ some s := by
  obtain ⟨w, p, hi⟩ := h.lists
  rcases step_handler hs ho with ⟨ops0, ho0, hsuf⟩ | ⟨rfl, hctx, _⟩
  · have hcur := State.cur_ne_task ho0
    obtain ⟨h1, h2⟩ := h.onTask t ops0 ho0 s (hsuf.subset hd)
    refine ⟨fun hheld => ?_, by rw [step_pc_of_ne hcur hs]; exact h2⟩
    rcases held_step hi hs hheld with hh | hh | hh
    · exact h1 hh
    · exact hcur hh
    · exact h2 hh
  · -- the handler is just starting
    have ha : σ.active = some t := by
      unfold State.handlerCtx at hctx
      split at hctx
      · rename_i t' ht'
        rw [ht', Ctx.irq.inj hctx]
      · cases hctx
    have hsafe := hok s hd
    rw [ha] at hsafe
    obtain ⟨_, hs⟩ := of_assert hs
    cases hs
    exact hsafe

theorem ttyInv_step (h : TtyInv σ) (hkey : FromKeyboard σ a)
    (hok : SafelyTimed σ a) (hs : step σ a = some σ') : TtyInv σ' := by
  obtain ⟨w, p, hi⟩ := h.lists
  obtain ⟨w', p', hi', _⟩ := semInv_step (fun _ => 1) hi hs
  have hidle : (σ'.pc .idleIrq).blocks = false
      ∧ ∀ ops, σ'.handler .idleIrq = some ops → IdleInv σ' ops := by
    cases ho : σ.handler .idleIrq with
    | some ops => exact idleInv_step (h.onIdle ops ho) ho hs
    | none =>
      have hcur : σ.cur ≠ some .idleIrq := by
        intro hcur
        obtain ⟨t, e⟩ := State.handler_of_cur hcur ho
        cases e
      have hplace : (σ'.pc .idleIrq).blocks = false := by
        rw [step_pc_of_ne hcur hs]; exact h.idlePlace
      refine ⟨hplace, fun ops ho' => ?_⟩
      rcases step_handler hs ho' with ⟨ops0, ho0, _⟩ | ⟨rfl, hctx, _⟩
      · rw [ho] at ho0; cases ho0
      · -- a key is pressed while the processor is idle
        have ha : σ.active = none := by
          unfold State.handlerCtx at hctx
          split at hctx
          · cases hctx
          · assumption
        obtain ⟨key, u, rfl⟩ := hkey
        have hfree : ∀ s, .down s ∈ handleInterrupt key u → 0 < (σ.sem s).count := by
          intro s hd
          have := hok s hd
          rwa [ha] at this
        obtain ⟨_, hs⟩ := of_assert hs
        cases hs
        refine ⟨ha, h.idlePlace, enough_handleInterrupt fun s hd => ⟨hfree s hd, h.typed s⟩,
          fun s hmem => ?_⟩
        have hd : .down s ∈ handleInterrupt key u := hmem.elim id down_mem_of_up_mem
        exact (hi.threads s).first_none.mpr (hi.free s (hfree s hd))
  exact ⟨⟨w', p', hi'⟩, count_step h.typed hs, fun t ops ho s hd => ttyInv_onTask h hok hs ho hd,
    hidle.1, hidle.2⟩

/--
**The keyboard handler does not lock out the task it interrupts.** In every run
in which keys are pressed only when it is safe to interrupt, a handler never
requests a mutex that the task it interrupted holds, and never meets a taken
mutex while no task is active.
-/
theorem keyboard_handler_safe (garbage : Unit → Nat) (tasks : List Tid) (σ : State TtyLock Unit)
    (hr : Reach step (fun σ a => FromKeyboard σ a ∧ SafelyTimed σ a)
      (init (fun _ => 1) garbage tasks) σ) : HandlerSafe σ := by
  have h : TtyInv σ := by
    refine hr.invariant ?_ (fun σ a σ' hi hok hs => ttyInv_step hi hok.1 hok.2 hs)
    exact ⟨⟨_, _, semInv_init _ garbage tasks⟩, by simp [init], by simp [init], rfl, by simp [init]⟩
  intro x s rest hcur _ ho
  refine ⟨?_, ?_⟩
  · rintro t rfl
    exact (h.onTask t _ ho s mem_cons_self).1
  · rintro rfl
    exact (h.onIdle _ ho).enough.1

/-- A key that needs no memory. -/
def noHeap : HeapUse := { create := 0, queue := 0, reserve := 0, release := 0 }

theorem keyboard_handler_safe_key :
    ∃ σ : State TtyLock Unit,
      Reach step (fun σ a => FromKeyboard σ a ∧ SafelyTimed σ a)
        (init (fun _ => 1) (fun _ => 0) [1]) σ
      ∧ σ.cur = some (.irq 1) ∧ σ.handler (.irq 1) = some [.down .tty, .up .tty]
      ∧ HandlerSafe σ := by
  let σ₀ : State TtyLock Unit := init (fun _ => 1) (fun _ => 0) [1]
  let σ₁ : State TtyLock Unit := { σ₀ with active := some 1 }
  have h2 : Reach step (fun σ a => FromKeyboard σ a ∧ SafelyTimed σ a) σ₀ σ₁ :=
    Reach.tail (a := .timer (some 1)) Reach.start ⟨trivial, trivial⟩ rfl
  have hkey : FromKeyboard σ₁ (.irq (handleInterrupt (some 'a') noHeap)) := ⟨_, _, rfl⟩
  have hsafe : SafelyTimed σ₁ (.irq (handleInterrupt (some 'a') noHeap)) := fun s _ =>
    ⟨not_mem_nil, by simp [σ₁, σ₀, init]⟩
  have h3 := Reach.tail h2 ⟨hkey, hsafe⟩ rfl
  exact ⟨_, h3, rfl, rfl, keyboard_handler_safe _ _ _ h3⟩

/-- Task 1 has locked the terminal, as `readInto` does first, when a key is pressed. -/
def keyInReadRun : List (Action TtyLock Unit) :=
  [.timer (some 1), .call (.down .tty), .irq (handleInterrupt (some 'a') noHeap)]

/-- What happens next: the handler queues for the mutex and goes to sleep. -/
def keyInReadRun' : List (Action TtyLock Unit) :=
  keyInReadRun ++ [.call (.down .tty), .advance none]

/--
**A key pressed inside `readInto` locks the task out.** The handler requests the
mutex that the task it interrupted holds; from then on the task sleeps in the
handler, on a mutex that only it can unlock.
-/
theorem key_in_read_deadlocks :
    (∃ σ : State TtyLock Unit, Reach step FromKeyboard (init (fun _ => 1) (fun _ => 0) [1]) σ
      ∧ ¬ HandlerSafe σ)
    ∧ ∃ σ : State TtyLock Unit, Reach step FromKeyboard (init (fun _ => 1) (fun _ => 0) [1]) σ
      ∧ σ.taskState 1 = .Sleeping ∧ σ.active = none ∧ σ.ghost.held .tty = [.task 1]
      ∧ (σ.sem .tty).waiters.first = some (.irq 1) := by
  have hok : ∀ a ∈ keyInReadRun', ∀ σ, FromKeyboard σ a := by
    intro a ha σ
    simp only [keyInReadRun', keyInReadRun, List.cons_append, List.nil_append, mem_cons,
      not_mem_nil, or_false] at ha
    rcases ha with rfl | rfl | rfl | rfl | rfl
    · trivial
    · trivial
    · exact ⟨_, _, rfl⟩
    · trivial
    · trivial
  constructor
  · have hrun : (run step (init (fun _ => 1) (fun _ => 0) [1] : State TtyLock Unit)
        keyInReadRun).map (fun σ => decide (σ.cur = some (.irq 1) ∧ σ.pc (.irq 1) = .run
          ∧ σ.handler (.irq 1) = some [.down .tty, .up .tty] ∧ σ.ghost.held .tty = [.task 1]))
        = some true := by decide
    obtain ⟨σ, hσ, hv⟩ := map_eq_some_iff.mp hrun
    obtain ⟨h1, h2, h3, h4⟩ := of_decide_eq_true hv
    refine ⟨σ, Reach.of_run (fun a ha => hok a (mem_append_left _ ha)) hσ, fun hsafe => ?_⟩
    refine (hsafe (.irq 1) .tty _ h1 h2 h3).1 1 rfl ?_
    rw [h4]; exact mem_cons_self
  · have hrun : (run step (init (fun _ => 1) (fun _ => 0) [1] : State TtyLock Unit)
        keyInReadRun').map (fun σ => decide (σ.taskState 1 = .Sleeping ∧ σ.active = none
          ∧ σ.ghost.held .tty = [.task 1] ∧ (σ.sem .tty).waiters.first = some (.irq 1)))
        = some true := by decide
    obtain ⟨σ, hσ, hv⟩ := map_eq_some_iff.mp hrun
    exact ⟨σ, Reach.of_run hok hσ, of_decide_eq_true hv⟩

end Flix.Sync

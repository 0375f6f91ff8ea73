import Flix.Sync.WaiterCount

/-!
# The vector of `notify_all`

`notify_all` collects the waiters in a vector under its spinlock, and reserves
room for `_waiterCount` of them before it takes the lock, so that no `push_back`
has to call the heap there. This rests on two things: that `_waiterCount` is the
length of the list, and that the list does not get longer before the lock is
taken.

Neither is certain. `_waiterCount` has no initialiser, and the counter is read
without the lock, so a `wait` can come in between. `sound_iff` says that these
are the only two ways to go wrong: as long as no `wait` comes in between, every
run from a given initial counter is sound if and only if that counter is zero.
-/

namespace Flix.Sync

open Function Fifo Runs

variable {S C : Type} [DecidableEq S] [DecidableEq C]

/-! ## `notify_all` with its vector -/

namespace NotifyAll

/-- `std::vector<Waiter*>`. -/
structure Vec where
  items : List Ctx
  capacity : Nat
  /-- How often `push_back` had to call the heap. -/
  growths : Nat
  deriving DecidableEq

/-- An empty vector after `reserve(n)`. -/
def Vec.reserve (n : Nat) : Vec := { items := [], capacity := n, growths := 0 }

/-- A full vector moves to a block of twice its size. -/
def Vec.push_back (v : Vec) (w : Ctx) : Vec :=
  if v.items.length < v.capacity then { v with items := v.items ++ [w] }
  else
    { items := v.items ++ [w]
      capacity := max (2 * v.capacity) (v.items.length + 1)
      growths := v.growths + 1 }

/-- The loop of `notify_all` over the waiters it finds. -/
def Vec.collect (v : Vec) (ws : List Ctx) : Vec := ws.foldl Vec.push_back v

/-- The machine, with the `notify_all`s that have not taken their lock yet. -/
structure Machine (S C : Type) where
  sync : State S C
  /-- The condition variable of the `notify_all` a context has begun, and its vector. -/
  vector : Ctx → Option (C × Vec)
  /-- How often the heap was called with the spinlock held. -/
  underLock : Nat
  /-- What the last notifier call of a context has taken off the list, and whom of these it
  has called `wakeUpTask` for, in that order. -/
  collected : Ctx → List Ctx
  woken : Ctx → List Ctx

inductive Act (S C : Type) where
  /-- The executing context begins a `notify_all`: it reads `_waiterCount` and reserves. -/
  | reserve (c : C)
  | sync (a : Action S C)

/-- A task may call `notify_all` any time, a handler when it is the next of its calls. -/
def mayNotifyAll (σ : State S C) (x : Ctx) (c : C) : Bool :=
  match σ.handler x with
  | none => true
  | some calls => decide (calls.head? = some (.notifyAll c))

def reserve (m : Machine S C) (c : C) : Option (Machine S C) := do
  let x ← m.sync.cur
  assert (m.sync.pc x = .run)
  assert (m.vector x = none)
  assert (mayNotifyAll m.sync x c = true)
  some { m with
    vector := update m.vector x (some (c, Vec.reserve (m.sync.cond c).waiterCount)) }

/-- The locked section. -/
def notifyAll (m : Machine S C) (c : C) : Option (Machine S C) := do
  let x ← m.sync.cur
  let (c', v) ← m.vector x
  assert (c' = c)
  let σ := m.sync
  let ws ← follow σ.condWaiter.next (2 * σ.tasks.length) (σ.cond c).waiters.first
  let σ' ← Sync.step σ (.call (.notifyAll c))
  some {
    sync := σ'
    vector := update m.vector x none
    underLock := m.underLock + (v.collect ws).growths
    collected := update m.collected x (v.collect ws).items
    woken := update m.woken x [] }

/-- Any other call. Before its locked section a `notify_all` only calls the heap, that is,
it locks and unlocks a mutex. -/
def call (m : Machine S C) (op : Call S C) : Option (Machine S C) := do
  let x ← m.sync.cur
  let σ' ← Sync.step m.sync (.call op)
  match op with
  | .notifyAll _ => none
  | .notifyOne _ => do
      assert (m.vector x = none)
      some { m with
        sync := σ'
        collected := update m.collected x (σ'.pc x).taken
        woken := update m.woken x [] }
  | .wait _ _ => do
      assert (m.vector x = none)
      some { m with sync := σ' }
  | .down _ => some { m with sync := σ' }
  | .up _ => some { m with sync := σ' }

def advance (m : Machine S C) (next : Option Tid) : Option (Machine S C) := do
  let x ← m.sync.cur
  let σ' ← Sync.step m.sync (.advance next)
  some { m with
    sync := σ'
    woken := update m.woken x (m.woken x ++ (m.sync.pc x).waking.toList) }

def step (m : Machine S C) : Act S C → Option (Machine S C)
  | .reserve c => reserve m c
  | .sync (.call (.notifyAll c)) => notifyAll m c
  | .sync (.call op) => call m op
  | .sync (.advance next) => advance m next
  | .sync a => (Sync.step m.sync a).map fun σ' => { m with sync := σ' }

def start (n : S → Nat) (garbage : C → Nat) (tasks : List Tid) : Machine S C where
  sync := init n garbage tasks
  vector _ := none
  underLock := 0
  collected _ := []
  woken _ := []

/-- No `wait` comes in between the reservation of a `notify_all` and its lock; and, as
everywhere, handlers do not block. -/
def Undisturbed (m : Machine S C) : Act S C → Prop
  | .reserve _ => True
  | .sync (.call (.wait c _)) => ∀ x v, m.vector x ≠ some (c, v)
  | .sync a => HandlersDoNotBlock m.sync a

/-! ## What `notify_all` relies on -/

/-- The waiter list of `c`. -/
def Waiting (m : Machine S C) (c : C) (l : List Ctx) : Prop :=
  Represents m.sync.condWaiter.next (m.sync.cond c).waiters l

structure Sound (m : Machine S C) : Prop where
  /-- `_waiterCount` is the length of the list. -/
  count : ∀ c, ∃ l, Waiting m c l ∧ (m.sync.cond c).waiterCount = l.length
  /-- A `notify_all` that comes to its lock has reserved enough, -/
  room : ∀ x c v, m.vector x = some (c, v) → ∃ l, Waiting m c l ∧ l.length ≤ v.capacity
  /-- so the heap is never called under the lock. -/
  underLock : m.underLock = 0
  /-- It collects the waiters that are queued when it has the lock. -/
  collects : ∀ x c l m', m.sync.cur = some x → Waiting m c l →
    step m (.sync (.call (.notifyAll c))) = some m' → m'.collected x = l
  /-- Each of them was woken once, or is still to be woken by this notifier, -/
  accounted : ∀ x, m.woken x ++ (m.sync.pc x).taken = m.collected x ∧ (m.collected x).Nodup
  /-- and until then by nobody else; -/
  once : ∀ x y w, w ∈ (m.sync.pc x).taken → w ∈ (m.sync.pc y).taken → x = y
  off : ∀ x w c l, w ∈ (m.sync.pc x).taken → Waiting m c l → w ∉ l
  /-- and the notifier gets there. -/
  goesOn : ∀ x next, m.sync.cur = some x → (m.sync.pc x).taken ≠ [] →
    ∃ m', step m (.sync (.advance next)) = some m'

theorem Vec.collect_items {ws : List Ctx} : ∀ {v : Vec}, (v.collect ws).items = v.items ++ ws := by
  induction ws with
  | nil => intro v; simp [collect]
  | cons w ws ih =>
    intro v
    have hpush : (v.push_back w).items = v.items ++ [w] := by
      unfold push_back
      split <;> rfl
    show ((v.push_back w).collect ws).items = _
    rw [ih, hpush, append_assoc, List.singleton_append]

/-- With enough room reserved the heap is not called. -/
theorem Vec.collect_growths {ws : List Ctx} : ∀ {v : Vec},
    v.items.length + ws.length ≤ v.capacity → (v.collect ws).growths = v.growths := by
  induction ws with
  | nil => intro v _; rfl
  | cons w ws ih =>
    intro v h
    have hlen : v.items.length < v.capacity := by
      simp only [length_cons] at h
      omega
    have hpush : v.push_back w = { v with items := v.items ++ [w] } := if_pos hlen
    have hroom : (v.push_back w).items.length + ws.length ≤ (v.push_back w).capacity := by
      rw [hpush]
      simp only [length_append, length_cons, List.length_nil] at h ⊢
      omega
    show ((v.push_back w).collect ws).growths = _
    rw [ih hroom, hpush]

/-! ## Every run -/

structure Inv (list : C → List Ctx) (m : Machine S C) : Prop where
  base : ListBase list m.sync
  counts : Counts list m.sync
  room : ∀ x c v, m.vector x = some (c, v) →
    v.items = [] ∧ v.growths = 0 ∧ (list c).length ≤ v.capacity
  underLock : m.underLock = 0
  accounted : ∀ x, m.woken x ++ (m.sync.pc x).taken = m.collected x ∧ (m.collected x).Nodup

variable {list list' : C → List Ctx} {m m' : Machine S C}

variable {c : C}

theorem notifyAll_inv (h : notifyAll m c = some m') :
    ∃ x v ws σ', m.sync.cur = some x ∧ m.vector x = some (c, v)
      ∧ follow m.sync.condWaiter.next (2 * m.sync.tasks.length) (m.sync.cond c).waiters.first
        = some ws
      ∧ Sync.step m.sync (.call (.notifyAll c)) = some σ'
      ∧ m' = { sync := σ', vector := update m.vector x none
               underLock := m.underLock + (v.collect ws).growths
               collected := update m.collected x (v.collect ws).items
               woken := update m.woken x [] } := by
  obtain ⟨x, hx, h⟩ := of_bind h
  obtain ⟨⟨c', v⟩, hv, h⟩ := of_bind h
  obtain ⟨hc, h⟩ := of_assert h
  obtain ⟨ws, hws, h⟩ := of_bind h
  obtain ⟨σ', hσ, h⟩ := of_bind h
  cases h
  subst hc
  exact ⟨x, v, ws, σ', hx, hv, hws, hσ, rfl⟩

/-- A call that is no `notify_all`: after a `notify_one` the waiter it took is to be woken,
after any other call of `x` nobody is. -/
theorem call_inv {op : Call S C} (h : call m op = some m') :
    ∃ x σ', m.sync.cur = some x ∧ Sync.step m.sync (.call op) = some σ'
      ∧ ((∃ c, op = .notifyOne c ∧ m' = { m with
            sync := σ', collected := update m.collected x (σ'.pc x).taken
            woken := update m.woken x [] })
          ∨ ((σ'.pc x).taken = [] ∧ m' = { m with sync := σ' })) := by
  obtain ⟨x, hx, h⟩ := of_bind h
  obtain ⟨σ', hs, h⟩ := of_bind h
  refine ⟨x, σ', hx, hs, ?_⟩
  obtain ⟨x', p, hx', _, hm, he⟩ := call_effect hs
  obtain rfl : x = x' := mem_unique hx hx'
  cases op with
  | notifyAll c => cases h
  | notifyOne c =>
    obtain ⟨_, h⟩ := of_assert h
    cases h
    exact Or.inl ⟨c, rfl, rfl⟩
  | wait c s =>
    obtain ⟨_, h⟩ := of_assert h
    cases h
    exact Or.inr ⟨by rw [hm.self]; exact he.2.2, rfl⟩
  | down s =>
    cases h
    exact Or.inr ⟨by rw [hm.self]; exact he.2, rfl⟩
  | up s =>
    cases h
    exact Or.inr ⟨by rw [hm.self]; exact he.2, rfl⟩

omit [DecidableEq S] [DecidableEq C] in
theorem Undisturbed.handlers {a : Action S C} (h : Undisturbed m (.sync a)) :
    HandlersDoNotBlock m.sync a := by
  cases a with
  | call op => trivial
  | advance next => trivial
  | timer next => trivial
  | irq calls => exact h

omit [DecidableEq S] [DecidableEq C] in
theorem Inv.room_step {a : Action S C} (h : Inv list m) (hok : Undisturbed m (.sync a))
    (hshort : ∀ c, (∀ s, a ≠ .call (.wait c s)) → (list' c).length ≤ (list c).length)
    {x : Ctx} {v : Vec} (hv : m.vector x = some (c, v)) :
    v.items = [] ∧ v.growths = 0 ∧ (list' c).length ≤ v.capacity := by
  obtain ⟨hi, hg, hle⟩ := h.room x c v hv
  refine ⟨hi, hg, Nat.le_trans (hshort c (fun s e => ?_)) hle⟩
  subst e
  exact hok x v hv

theorem Inv.reserve (h : Inv list m) (hs : reserve m c = some m') : Inv list m' := by
  obtain ⟨x, _, hs⟩ := of_bind hs
  obtain ⟨_, hs⟩ := of_assert hs
  obtain ⟨_, hs⟩ := of_assert hs
  obtain ⟨_, hs⟩ := of_assert hs
  cases hs
  refine { h with room := fun y c' v hv => ?_ }
  by_cases hy : y = x
  · subst hy
    simp only [update_self] at hv
    cases hv
    exact ⟨rfl, rfl, Nat.le_of_eq (h.counts c).symm⟩
  · simp only [update_of_ne hy] at hv
    exact h.room y c' v hv

theorem Inv.notifyAll (h : Inv list m) (hs : notifyAll m c = some m') : ∃ list', Inv list' m' := by
  obtain ⟨x, v, ws, σ', hx, hv, hws, hσ, rfl⟩ := notifyAll_inv hs
  obtain ⟨list', hb'⟩ := h.base.step (a := .call (.notifyAll c)) trivial hσ
  obtain ⟨hc', hshort⟩ := h.counts.step h.base hb' hσ
  obtain ⟨x', p, hx', _, hm, ws', hws', _, _, hp⟩ := call_effect hσ
  obtain rfl : x = x' := mem_unique hx hx'
  obtain rfl : ws = ws' := mem_unique hws hws'
  have hth := h.base.lists.threads c
  have hlist : ws = list c := follow_eq hth.linked (hth.first ▸ hws)
  obtain ⟨hitems, hgrowths, hroom⟩ := h.room x c v hv
  refine ⟨list', hb', hc', fun y c' v' hv' => ?_, ?_, fun y => ?_⟩
  · by_cases hy : y = x
    · subst hy
      simp only [update_self] at hv'
      cases hv'
    · simp only [update_of_ne hy] at hv'
      exact h.room_step (a := .call (.notifyAll c)) trivial hshort hv'
  · rw [Vec.collect_growths (by rw [hitems, hlist, List.length_nil, Nat.zero_add]; exact hroom),
      hgrowths, h.underLock]
  · show update m.woken x [] y ++ (σ'.pc y).taken = update m.collected x (v.collect ws).items y
      ∧ (update m.collected x (v.collect ws).items y).Nodup
    by_cases hy : y = x
    · subst hy
      rw [update_self, update_self, hm.self, hp, Vec.collect_items, hitems]
      exact ⟨rfl, hlist ▸ hth.nodup⟩
    · rw [update_of_ne hy, update_of_ne hy, hm.of_ne hy]
      exact h.accounted y

theorem Inv.call {op : Call S C} (h : Inv list m) (hok : Undisturbed m (.sync (.call op)))
    (hs : call m op = some m') : ∃ list', Inv list' m' := by
  obtain ⟨x, σ', hx, hσ, hm'⟩ := call_inv hs
  obtain ⟨list', hb'⟩ := h.base.step hok.handlers hσ
  obtain ⟨hc', hshort⟩ := h.counts.step h.base hb' hσ
  obtain ⟨x', p, hx', hp, hm, _⟩ := call_effect hσ
  obtain rfl : x = x' := mem_unique hx hx'
  have hrun : (m.sync.pc x).taken = [] := by rw [hp]; rfl
  obtain ⟨c, rfl, rfl⟩ | ⟨htaken, rfl⟩ := hm'
  · refine ⟨list', hb', hc', fun y c' v hv => h.room_step hok hshort hv, h.underLock, fun y => ?_⟩
    show update m.woken x [] y ++ (σ'.pc y).taken = update m.collected x (σ'.pc x).taken y
      ∧ (update m.collected x (σ'.pc x).taken y).Nodup
    by_cases hy : y = x
    · subst hy
      rw [update_self, update_self]
      exact ⟨rfl, hb'.lists.taken_nodup y⟩
    · rw [update_of_ne hy, update_of_ne hy, hm.of_ne hy]
      exact h.accounted y
  · refine ⟨list', hb', hc', fun y c' v hv => h.room_step hok hshort hv, h.underLock, fun y => ?_⟩
    by_cases hy : y = x
    · subst hy
      rw [htaken, ← hrun]
      exact h.accounted y
    · rw [hm.of_ne hy]
      exact h.accounted y

theorem Inv.advance {next : Option Tid} (h : Inv list m) (hs : advance m next = some m') :
    ∃ list', Inv list' m' := by
  obtain ⟨x, hx, hs⟩ := of_bind hs
  obtain ⟨σ', hσ, hs⟩ := of_bind hs
  cases hs
  obtain ⟨list', hb'⟩ := h.base.step (a := .advance next) trivial hσ
  obtain ⟨hc', hshort⟩ := h.counts.step h.base hb' hσ
  obtain ⟨x', p, hx', hm, _, ht⟩ := advance_effect hσ
  obtain rfl : x = x' := mem_unique hx hx'
  refine ⟨list', hb', hc', fun y c' v hv => h.room_step (a := .advance next) trivial hshort hv,
    h.underLock, fun y => ?_⟩
  show update m.woken x (m.woken x ++ (m.sync.pc x).waking.toList) y ++ (σ'.pc y).taken
    = m.collected y ∧ (m.collected y).Nodup
  by_cases hy : y = x
  · subst hy
    rw [update_self, append_assoc, hm.self, ← ht]
    exact h.accounted y
  · rw [update_of_ne hy, hm.of_ne hy]
    exact h.accounted y

/-- Every undisturbed step keeps the invariant. -/
theorem Inv.step {a : Act S C} (h : Inv list m) (hok : Undisturbed m a)
    (hs : step m a = some m') : ∃ list', Inv list' m' := by
  -- steps that move nobody
  have quiet : ∀ {b : Action S C} {σ' : State S C}, Undisturbed m (.sync b) →
      Sync.step m.sync b = some σ' → σ'.pc = m.sync.pc → ∃ l, Inv l { m with sync := σ' } := by
    intro b σ' hok hσ hpc
    obtain ⟨list', hb'⟩ := h.base.step hok.handlers hσ
    obtain ⟨hc', hshort⟩ := h.counts.step h.base hb' hσ
    refine ⟨list', hb', hc', fun y c' v hv => h.room_step hok hshort hv, h.underLock,
      fun y => ?_⟩
    rw [hpc]
    exact h.accounted y
  cases a with
  | reserve c => exact ⟨list, h.reserve hs⟩
  | sync a =>
    cases a with
    | call op =>
      cases op with
      | notifyAll c => exact h.notifyAll hs
      | notifyOne c => exact h.call hok hs
      | wait c s => exact h.call hok hs
      | down s => exact h.call hok hs
      | up s => exact h.call hok hs
    | advance next => exact h.advance hs
    | timer next =>
      obtain ⟨σ', hσ, rfl⟩ := map_eq_some_iff.mp hs
      refine quiet hok hσ ?_
      obtain ⟨_, hσ⟩ := of_assert hσ
      rw [(scheduleNext_eq hσ).1]
    | irq calls =>
      obtain ⟨σ', hσ, rfl⟩ := map_eq_some_iff.mp hs
      refine quiet hok hσ ?_
      obtain ⟨_, hσ⟩ := of_assert hσ
      cases hσ
      rfl

/-- A notifier that has waiters to wake is not stopped. -/
theorem Inv.goesOn (h : Inv list m) {x : Ctx} (next : Option Tid) (hx : m.sync.cur = some x)
    (ht : (m.sync.pc x).taken ≠ []) : ∃ m', NotifyAll.step m (.sync (.advance next)) = some m' := by
  have hsync : ∃ σ', Sync.step m.sync (.advance next) = some σ' := by
    simp only [Sync.step, hx, bind_eq_bind, bind_some]
    cases hp : m.sync.pc x with
    | notify ws =>
      cases ws with
      | nil => rw [hp] at ht; exact absurd rfl ht
      | cons w ws =>
        simp only [Sync.advance, hp]
        exact ⟨_, rfl⟩
    | notifyWake w ws =>
      -- the waiter belongs to a task
      have hw : w ∈ (m.sync.pc x).taken := by rw [hp]; exact mem_cons_self
      obtain ⟨c, hc⟩ := h.base.lists.taken w x hw
      obtain ⟨t, rfl⟩ := h.base.task_of_sleepsOn hc
      simp only [Sync.advance, hp]
      exact ⟨_, rfl⟩
    | _ => rw [hp] at ht; exact absurd rfl ht
  obtain ⟨σ', hσ⟩ := hsync
  show ∃ m', NotifyAll.advance m next = some m'
  simp only [NotifyAll.advance, hx, hσ]
  exact ⟨_, rfl⟩

theorem Inv.sound (h : Inv list m) : Sound m where
  count c := ⟨list c, h.base.lists.threads c, h.counts c⟩
  room x c v hv := ⟨list c, h.base.lists.threads c, (h.room x c v hv).2.2⟩
  underLock := h.underLock
  collects x c l m' hx hl hs := by
    obtain ⟨x', v, ws, σ', hx', hv, hws, _, rfl⟩ := notifyAll_inv hs
    obtain rfl : x = x' := mem_unique hx hx'
    show update m.collected x (v.collect ws).items x = l
    rw [update_self, Vec.collect_items, (h.room x c v hv).1]
    exact follow_eq hl.linked (hl.first ▸ hws)
  accounted := h.accounted
  once x y w hx hy := h.base.lists.taken_once w x y hx hy
  off x w c l hw hl hm := by
    rw [hl.unique (h.base.lists.threads c)] at hm
    exact h.base.lists.untaken c w hm x hw
  goesOn _ next hx ht := h.goesOn next hx ht

omit [DecidableEq S] [DecidableEq C] in
theorem inv_start (n : S → Nat) {garbage : C → Nat} {tasks : List Tid}
    (hn : tasks.length < 2 ^ 32) (hg : ∀ c, garbage c = 0) :
    Inv (fun _ => []) (start n garbage tasks : Machine S C) := by
  obtain ⟨w, p, hi⟩ : ∃ w p, SemInv w p (init n garbage tasks : State S C) :=
    ⟨_, _, semInv_init n garbage tasks⟩
  refine ⟨⟨⟨w, p, hi⟩, listInv_init n garbage tasks, wakeInv_init n garbage tasks, ?_, hn⟩, hg,
    nofun, rfl, fun x => ⟨rfl, List.nodup_nil⟩⟩
  exact ⟨nofun, fun t ht => absurd rfl ht⟩

/--
**`notify_all` allocates nothing under its lock, provided its counter starts at zero and no
`wait` comes in between its reservation and its lock.** Runs are any interleaving of tasks,
timer and non-blocking handlers.
-/
theorem sound_iff (n : S → Nat) (garbage : C → Nat) (tasks : List Tid)
    (hn : tasks.length < 2 ^ 32) :
    (∀ m : Machine S C, Reach step Undisturbed (start n garbage tasks) m → Sound m)
      ↔ ∀ c, garbage c = 0 := by
  constructor
  · -- already the first state counts whatever was in memory
    intro h c
    obtain ⟨l, hl, hcount⟩ := (h _ Reach.start).count c
    obtain rfl : l = [] := hl.unique (Represents.empty _)
    exact hcount
  · intro hg m hr
    have hinv : ∃ l, Inv l m := by
      refine hr.invariant (I := fun m => ∃ l, Inv l m) ⟨_, inv_start n hn hg⟩ ?_
      intro m a m' ih hok hs
      obtain ⟨l, ih⟩ := ih
      exact ih.step hok hs
    obtain ⟨l, hl⟩ := hinv
    exact hl.sound

/-- Task 1 waits; task 2 begins a `notify_all`, and takes the lock. -/
def waitRun : List (Act Unit Unit) :=
  [.sync (.timer (some 1)), .sync (.call (.down ())), .sync (.call (.wait () ()))]

def notifyRun : List (Act Unit Unit) :=
  [.sync (.timer (some 2)), .reserve (), .sync (.call (.notifyAll ()))]

theorem sound_iff_notifyRun :
    [1, 2].length < 2 ^ 32 ∧ ∃ m : Machine Unit Unit,
      Reach step Undisturbed (start (fun _ => 1) (fun _ => 0) [1, 2]) m
      ∧ m.collected (.task 2) = [.task 1] ∧ Sound m := by
  have hwait : ((run step (start (fun _ => 1) (fun _ => 0) [1, 2]) waitRun).bind
      fun m => (run step m notifyRun).map fun m' => decide (m'.collected (.task 2) = [.task 1]))
      = some true := by decide
  obtain ⟨m, hm, h⟩ := bind_eq_some_iff.mp hwait
  obtain ⟨m', hm', hv⟩ := map_eq_some_iff.mp h
  have hr : Reach step Undisturbed (start (fun _ => 1) (fun _ => 0) [1, 2]) m := by
    obtain ⟨m₁, h₁, hm⟩ := bind_eq_some_iff.mp hm
    obtain ⟨m₂, h₂, hm⟩ := bind_eq_some_iff.mp hm
    obtain ⟨m₃, h₃, hm⟩ := bind_eq_some_iff.mp hm
    cases hm
    refine ((Reach.start.tail trivial h₁).tail trivial h₂).tail ?_ h₃
    cases h₁
    cases h₂
    nofun
  have hr' : Reach step Undisturbed (start (fun _ => 1) (fun _ => 0) [1, 2]) m' := by
    refine hr.trans (Reach.of_run (fun a ha _ => ?_) hm')
    simp only [notifyRun, mem_cons, not_mem_nil, or_false] at ha
    obtain rfl | rfl | rfl := ha <;> trivial
  exact ⟨by decide, m', hr', of_decide_eq_true hv,
    (sound_iff _ _ [1, 2] (by decide)).mpr (fun _ => rfl) m' hr'⟩

/-- Task 2 begins a `notify_all` while nobody waits; task 1 then waits, and task 2 takes the
lock. -/
def lateWaiterRun : List (Act Unit Unit) :=
  [.sync (.timer (some 2)), .reserve (), .sync (.timer (some 1)), .sync (.call (.down ())),
    .sync (.call (.wait () ())), .sync (.timer (some 2)), .sync (.call (.notifyAll ()))]

/-- A counter with 7 in it is wrong from the start; and with a counter that is right, a
late waiter makes `push_back` call the heap under the lock. -/
theorem wrong_count_and_late_waiter :
    ¬ Sound (start (fun _ => 1) (fun _ => 7) [1, 2] : Machine Unit Unit)
    ∧ ∃ m : Machine Unit Unit,
      run step (start (fun _ => 1) (fun _ => 0) [1, 2]) lateWaiterRun = some m
      ∧ m.underLock = 1 ∧ ¬ Sound m := by
  constructor
  · intro h
    obtain ⟨l, hl, hcount⟩ := h.count ()
    obtain rfl : l = [] := hl.unique (Represents.empty _)
    cases hcount
  · have hrun : (run step (start (fun _ => 1) (fun _ => 0) [1, 2]) lateWaiterRun).map
        (fun m => decide (m.underLock = 1)) = some true := by decide
    obtain ⟨m, hm, hv⟩ := map_eq_some_iff.mp hrun
    have h1 : m.underLock = 1 := of_decide_eq_true hv
    refine ⟨m, hm, h1, fun h => ?_⟩
    rw [h.underLock] at h1
    cases h1

end NotifyAll

end Flix.Sync

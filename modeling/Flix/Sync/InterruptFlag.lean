import Flix.Lib.Runs
import Mathlib.Logic.Function.Basic

/-!
# The interrupt flag

`Util.hpp` and `SpinLock.hpp`. Guards change the interrupt flag and remember whether they
have: `DisableInterrupts` enables interrupts again when it goes out of scope if it found
them enabled, and `EnableInterrupts` the other way round. A `SpinLock` has a guard as long
as it is held, which it moves in and out of an optional, and a guard that has been moved
from does nothing any more.

Programs are made of scopes: of the two guards, of locks that are held, and of locks that
are released for a while (`getScopedUnlock`). What a program does depends on the scopes
around it. The context is the list of those that matter, the innermost first: the locks
that are held and the scopes of `EnableInterrupts`.

Every scope leaves the flag, the locks and the count as it has found them. For the release
of a lock this is because the guard it takes out of the lock has seen the flag as it is to
be outside: between two locks it is off. That is so when interrupts are off at the release.
Directly inside a scope of `EnableInterrupts` the release finds the flag on, and the guard
of the lock fails its assertion when it is to enable it.
-/

namespace Flix.Sync.InterruptFlag

open Function

/-! ## Guards -/

structure State where
  /-- Bit 9 of `rflags`. -/
  flag : Bool
  /-- `SpinLock::_disableInterrupts`, with `_enable`. -/
  locks : Nat → Option Bool
  /-- `g_lockCount`. -/
  lockCount : BitVec 8

/-- `disableInterrupts`. -/
def disableInterrupts (s : State) : Option State := do
  -- "interrupts were already off"
  assert (s.flag = true)
  some { s with flag := false }

/-- `enableInterrupts`. -/
def enableInterrupts (s : State) : Option State := do
  -- "interrupts were already on"
  assert (s.flag = false)
  some { s with flag := true }

/-- A move constructor of a guard: the new guard, and what is left of the old one. -/
def moveGuard (guard : Bool) : Bool × Bool := (guard, false)

/-- The constructor of `DisableInterrupts`, with `_enable`. -/
def constructDisable (s : State) : Option (State × Bool) := do
  let enable := s.flag
  let s ← if enable then disableInterrupts s else some s
  some (s, enable)

/-- The destructor of `DisableInterrupts`. -/
def destroyDisable (s : State) (enable : Bool) : Option State :=
  if enable then enableInterrupts s else some s

/-- The constructor of `EnableInterrupts`, with `_disable`. -/
def constructEnable (s : State) : Option (State × Bool) := do
  let disable := !s.flag
  let s ← if disable then enableInterrupts s else some s
  some (s, disable)

/-- The destructor of `EnableInterrupts`. -/
def destroyEnable (s : State) (disable : Bool) : Option State :=
  if disable then disableInterrupts s else some s

/-- `SpinLock::lock`. A temporary guard is moved into the optional. -/
def lock (s : State) (l : Nat) : Option State := do
  assert (s.locks l = none)
  let (s, temporary) ← constructDisable s
  let (guard, temporary) := moveGuard temporary
  let s := { s with locks := update s.locks l (some guard) }
  let s ← destroyDisable s temporary
  some { s with lockCount := s.lockCount + 1 }

/-- `SpinLock::unlock`. The guard is moved out of the optional, which is reset before the guard
is destroyed. -/
def unlock (s : State) (l : Nat) : Option State := do
  let guard ← s.locks l
  let s := { s with lockCount := s.lockCount - 1 }
  let (di, rest) := moveGuard guard
  let s ← destroyDisable s rest
  let s := { s with locks := update s.locks l none }
  destroyDisable s di

/-! ## Programs -/

/-- Programs of scopes. -/
inductive Program where
  | skip
  | seq (p q : Program)
  /-- A scope with a `DisableInterrupts`. -/
  | disable (p : Program)
  /-- A scope with an `EnableInterrupts`. -/
  | enable (p : Program)
  /-- A scope with a `getScoped` of a lock. -/
  | locked (l : Nat) (p : Program)
  /-- A scope with a `getScopedUnlock` of the innermost lock that is held. -/
  | unlocked (p : Program)

/-- What a program can be inside of. -/
inductive Scope where
  | lock (l : Nat)
  | enable
  deriving DecidableEq

/-- The scopes around, the innermost first. -/
abbrev Context := List Scope

/-- The innermost lock that is held, and the context without it. -/
def innermost : Context → Option (Nat × Context)
  | [] => none
  | .lock l :: ctx => some (l, ctx)
  | .enable :: ctx => (innermost ctx).map fun (l, ctx) => (l, .enable :: ctx)

/-- The locks that are held. -/
def held : Context → List Nat
  | [] => []
  | .lock l :: ctx => l :: held ctx
  | .enable :: ctx => held ctx

/-- What is seen of a run. -/
inductive Event where
  /-- A point of the program. -/
  | point (ctx : Context) (s : State)
  /-- A scope is over: the flag at its start, and now. -/
  | closed (before after : Bool)

/-- A scope, from its guards on: what is seen inside, and at its end. -/
def scope (ctx : Context) (before : State) (enter : State)
    (body : State → Option (State × List Event)) (leave : State → Option State) :
    Option (State × List Event) := do
  let (s, events) ← body enter
  let after ← leave s
  some (after, .point ctx enter :: events ++ [.point ctx s, .closed before.flag after.flag])

/-- A program runs. -/
def exec : Program → Context → State → Option (State × List Event)
  | .skip, ctx, s => some (s, [.point ctx s])
  | .seq p q, ctx, s => do
      let (s, events) ← exec p ctx s
      let (s, events') ← exec q ctx s
      some (s, events ++ events')
  | .disable p, ctx, s => do
      let (s₁, enable) ← constructDisable s
      scope ctx s s₁ (exec p ctx) (destroyDisable · enable)
  | .enable p, ctx, s => do
      let (s₁, disable) ← constructEnable s
      scope (.enable :: ctx) s s₁ (exec p (.enable :: ctx)) (destroyEnable · disable)
  | .locked l p, ctx, s => do
      let s₁ ← lock s l
      scope (.lock l :: ctx) s s₁ (exec p (.lock l :: ctx)) (unlock · l)
  | .unlocked p, ctx, s => do
      let (l, outer) ← innermost ctx
      let s₁ ← unlock s l
      scope outer s s₁ (exec p outer) (lock · l)

/-- Well-nested programs: a lock is taken that is not held, and one is released that is. -/
def WellNested : Context → Program → Prop
  | _, .skip => True
  | ctx, .seq p q => WellNested ctx p ∧ WellNested ctx q
  | ctx, .disable p => WellNested ctx p
  | ctx, .enable p => WellNested (.enable :: ctx) p
  | ctx, .locked l p => l ∉ held ctx ∧ WellNested (.lock l :: ctx) p
  | ctx, .unlocked p =>
    match innermost ctx with
    | none => False
    | some (_, outer) => WellNested outer p

/-- In a program that starts in `s`, interrupts are off wherever a lock is released. -/
def ReleasesOff : Context → State → Program → Prop
  | _, _, .skip => True
  | ctx, s, .seq p q => ReleasesOff ctx s p ∧ ReleasesOff ctx s q
  | ctx, s, .disable p => ReleasesOff ctx { s with flag := false } p
  | ctx, s, .enable p => ReleasesOff (.enable :: ctx) { s with flag := true } p
  | ctx, s, .locked l p => ∀ s₁, lock s l = some s₁ → ReleasesOff (.lock l :: ctx) s₁ p
  | ctx, s, .unlocked p => s.flag = false ∧ ∀ l outer s₁, innermost ctx = some (l, outer) →
      unlock s l = some s₁ → ReleasesOff outer s₁ p

/-- What is to hold of an event. -/
def Event.Good : Event → Prop
  | .point ctx s =>
    -- inside a lock and in no scope of `EnableInterrupts` inside it, interrupts are disabled
    (∀ inner l outer, ctx = inner ++ .lock l :: outer → .enable ∉ inner → s.flag = false) ∧
    -- the count is right
    ((held ctx).length < 256 → s.lockCount.toNat = (held ctx).length)
  | .closed before after => after = before

/-! ## What the guards do -/

section Guards

variable {s : State} {l : Nat}

theorem constructDisable_eq (s : State) :
    constructDisable s = some ({ s with flag := false }, s.flag) := by
  obtain ⟨flag, locks, count⟩ := s
  cases flag <;> rfl

theorem constructEnable_eq (s : State) :
    constructEnable s = some ({ s with flag := true }, !s.flag) := by
  obtain ⟨flag, locks, count⟩ := s
  cases flag <;> rfl

theorem destroyDisable_eq (h : s.flag = false) (enable : Bool) :
    destroyDisable s enable = some { s with flag := enable } := by
  obtain ⟨flag, locks, count⟩ := s
  obtain rfl : flag = false := h
  cases enable <;> rfl

theorem destroyEnable_eq (h : s.flag = true) (disable : Bool) :
    destroyEnable s disable = some { s with flag := !disable } := by
  obtain ⟨flag, locks, count⟩ := s
  obtain rfl : flag = true := h
  cases disable <;> rfl

theorem lock_eq (h : s.locks l = none) : lock s l
    = some ⟨false, update s.locks l (some s.flag), s.lockCount + 1⟩ := by
  unfold lock
  rw [assert_pos h, constructDisable_eq]
  rfl

/-- And the flag is again what the guard remembers. -/
theorem unlock_eq {e : Bool} (h : s.locks l = some e) (hf : s.flag = false) : unlock s l
    = some ⟨e, update s.locks l none, s.lockCount - 1⟩ := by
  obtain ⟨flag, locks, count⟩ := s
  obtain rfl : flag = false := hf
  unfold unlock
  rw [h]
  cases e <;> rfl

end Guards

/-! ## The state in a context -/

/-- What the guards of the locks remember: inside another lock, that interrupts were disabled. -/
def Saved : Context → (Nat → Option Bool) → Prop
  | [], _ => True
  | .enable :: ctx, locks => Saved ctx locks
  | .lock l :: ctx, locks =>
    (∃ e, locks l = some e ∧ ∀ l' ctx', ctx = .lock l' :: ctx' → e = false) ∧ Saved ctx locks

/-- The state at a point. -/
structure Ok (ctx : Context) (s : State) : Prop where
  flag : ∀ l ctx', ctx = .lock l :: ctx' → s.flag = false
  saved : Saved ctx s.locks
  locks : ∀ l, s.locks l = none ↔ l ∉ held ctx
  nodup : (held ctx).Nodup
  count : s.lockCount = BitVec.ofNat 8 (held ctx).length

section Context

variable {ctx : Context} {s : State} {l : Nat}

/-- What a lock remembers does not depend on others. -/
theorem Saved.update {v : Option Bool} : ∀ {ctx : Context} {locks : Nat → Option Bool},
    Saved ctx locks → l ∉ held ctx → Saved ctx (Function.update locks l v)
  | [], _, _, _ => trivial
  | .enable :: ctx, locks, h, hl => by
    have h' : Saved ctx locks := h
    exact h'.update hl
  | .lock l' :: ctx, locks, ⟨⟨e, he, hout⟩, h⟩, hl => by
    obtain ⟨hne, hl⟩ := not_or.mp (mem_cons.not.mp hl)
    refine ⟨⟨e, ?_, hout⟩, h.update hl⟩
    rw [update_of_ne (Ne.symm hne), he]

theorem Ok.good (h : Ok ctx s) : (Event.point ctx s).Good := by
  refine ⟨fun inner l outer heq hin => ?_, fun hlt => ?_⟩
  · cases inner with
    | nil => exact h.flag l outer heq
    | cons x inner =>
      cases x with
      | lock l' => exact h.flag l' _ heq
      | enable => exact absurd mem_cons_self hin
  · rw [h.count, BitVec.toNat_ofNat, Nat.mod_eq_of_lt hlt]

theorem Ok.setFlag (h : Ok ctx s) {b : Bool} (hb : ∀ l ctx', ctx = .lock l :: ctx' → b = false) :
    Ok ctx { s with flag := b } :=
  { h with flag := hb }

theorem Ok.enable (h : Ok ctx s) : Ok (.enable :: ctx) { s with flag := true } :=
  { h with flag := nofun }

theorem Ok.lock (h : Ok ctx s) (hl : l ∉ held ctx) :
    Ok (.lock l :: ctx) ⟨false, update s.locks l (some s.flag), s.lockCount + 1⟩ := by
  refine ⟨fun _ _ _ => rfl, ⟨⟨s.flag, update_self .., h.flag⟩, h.saved.update hl⟩, fun l' => ?_,
    nodup_cons.mpr ⟨hl, h.nodup⟩, ?_⟩
  · show update s.locks l (some s.flag) l' = none ↔ l' ∉ l :: held ctx
    by_cases heq : l' = l
    · rw [heq]
      simp
    · rw [update_of_ne heq, h.locks, mem_cons, not_or]
      exact ⟨fun h' => ⟨heq, h'⟩, fun h' => h'.2⟩
  · show s.lockCount + 1 = BitVec.ofNat 8 ((held ctx).length + 1)
    rw [h.count, BitVec.ofNat_add]
    rfl

/-- The innermost lock is the first of those that are held, and what it remembers is right
outside. -/
theorem innermost_spec {locks : Nat → Option Bool} {outer : Context}
    (hin : innermost ctx = some (l, outer)) (h : Saved ctx locks) : held ctx = l :: held outer ∧
      Saved outer locks ∧ ∃ e, locks l = some e ∧
        ∀ l' ctx', outer = .lock l' :: ctx' → e = false := by
  induction ctx generalizing outer with
  | nil => cases hin
  | cons x ctx ih =>
    cases x with
    | lock l' =>
      cases hin
      exact ⟨rfl, h.2, h.1⟩
    | enable =>
      obtain ⟨⟨l', rest⟩, hrest, heq⟩ := map_eq_some_iff.mp hin
      cases heq
      obtain ⟨hheld, hsaved, e, he, -⟩ := ih hrest h
      exact ⟨hheld, hsaved, e, he, nofun⟩

/-- The release of the innermost lock. -/
theorem Ok.unlock {outer : Context} (h : Ok ctx s) (hin : innermost ctx = some (l, outer)) :
    ∃ e, s.locks l = some e ∧ Ok outer ⟨e, update s.locks l none, s.lockCount - 1⟩ := by
  obtain ⟨hheld, hsaved, e, he, hout⟩ := innermost_spec hin h.saved
  have hnodup := h.nodup
  rw [hheld] at hnodup
  obtain ⟨hl, hnd⟩ := nodup_cons.mp hnodup
  refine ⟨e, he, hout, hsaved.update hl, fun l' => ?_, hnd, ?_⟩
  · show update s.locks l none l' = none ↔ l' ∉ held outer
    by_cases heq : l' = l
    · rw [heq, update_self]
      exact iff_of_true rfl hl
    · rw [update_of_ne heq, h.locks, hheld, mem_cons, not_or]
      exact ⟨fun h' => h'.2, fun h' => ⟨heq, h'⟩⟩
  · rw [h.count, hheld, List.length_cons, BitVec.ofNat_add]
    exact BitVec.add_sub_cancel _ _

end Context

/-! ## Runs -/

/-- A scope restores the state when its body does, and when its end undoes its begin. -/
theorem scope_restores {ctx : Context} {s enter : State}
    {body : State → Option (State × List Event)} {leave : State → Option State}
    (hok : Ok ctx enter)
    (hbody : ∃ events, body enter = some (enter, events) ∧ ∀ e ∈ events, e.Good)
    (hleave : leave enter = some s) :
    ∃ events, scope ctx s enter body leave = some (s, events) ∧ ∀ e ∈ events, e.Good := by
  obtain ⟨events, hrun, hgood⟩ := hbody
  refine ⟨.point ctx enter :: events ++ [.point ctx enter, .closed s.flag s.flag], ?_, ?_⟩
  · unfold scope
    rw [hrun]
    simp only [bind_eq_bind, bind_some, hleave]
  · intro e he
    simp only [List.cons_append, mem_cons, mem_append, not_mem_nil, or_false] at he
    obtain rfl | he | rfl | rfl := he
    · exact hok.good
    · exact hgood e he
    · exact hok.good
    · exact rfl

/-- Every program restores the state, by induction on the program: each of its scopes does. -/
theorem exec_restores : ∀ (p : Program) {ctx : Context} {s : State}, WellNested ctx p →
    ReleasesOff ctx s p → Ok ctx s →
    ∃ events, exec p ctx s = some (s, events) ∧ ∀ e ∈ events, e.Good
  | .skip, ctx, s, _, _, hok => by
    refine ⟨_, rfl, fun e he => ?_⟩
    obtain rfl := mem_singleton.mp he
    exact hok.good
  | .seq p q, ctx, s, hw, hr, hok => by
    obtain ⟨events, hp, hgood⟩ := exec_restores p hw.1 hr.1 hok
    obtain ⟨events', hq, hgood'⟩ := exec_restores q hw.2 hr.2 hok
    refine ⟨events ++ events', ?_, fun e he => ?_⟩
    · rw [exec, hp]
      simp only [bind_eq_bind, bind_some, hq]
    · exact (mem_append.mp he).elim (hgood e) (hgood' e)
  | .disable p, ctx, s, hw, hr, hok => by
    have hin : Ok ctx { s with flag := false } := hok.setFlag fun _ _ _ => rfl
    rw [exec, constructDisable_eq]
    simp only [bind_eq_bind, bind_some]
    exact scope_restores hin (exec_restores p hw hr hin) (destroyDisable_eq rfl s.flag)
  | .enable p, ctx, s, hw, hr, hok => by
    rw [exec, constructEnable_eq]
    simp only [bind_eq_bind, bind_some]
    refine scope_restores hok.enable (exec_restores p hw hr hok.enable) ?_
    rw [destroyEnable_eq rfl, Bool.not_not]
  | .locked l p, ctx, s, hw, hr, hok => by
    have hnone : s.locks l = none := (hok.locks l).mpr hw.1
    have hin := hok.lock hw.1
    rw [exec, lock_eq hnone]
    simp only [bind_eq_bind, bind_some]
    refine scope_restores hin (exec_restores p hw.2 (hr _ (lock_eq hnone)) hin) ?_
    rw [unlock_eq (update_self ..) rfl, update_idem, ← hnone, update_eq_self,
      BitVec.add_sub_cancel]
  | .unlocked p, ctx, s, hw, ⟨hflag, hr⟩, hok => by
    rw [WellNested] at hw
    split at hw
    · exact hw.elim
    rename_i l outer hlock
    obtain ⟨e, he, hin⟩ := hok.unlock hlock
    have hunlock := unlock_eq he hflag
    rw [exec, hlock]
    simp only [bind_eq_bind, bind_some, hunlock]
    refine scope_restores hin (exec_restores p hw (hr l outer _ hlock hunlock) hin) ?_
    -- the guard remembers the same again
    rw [lock_eq (update_self ..), update_idem, ← he, update_eq_self, BitVec.sub_add_cancel,
      ← hflag]

/-- A state in which no lock is held. -/
def start (flag : Bool) : State := ⟨flag, fun _ => none, 0⟩

/-- **The interrupt flag** in any well-nested program, started with interrupts enabled or not, in
which locks are released with interrupts off: no assertion fails, the flag is off inside the locks,
the count is right, and every scope leaves the flag as it was. -/
theorem exec_disciplined {p : Program} (flag : Bool) (hw : WellNested [] p)
    (hr : ReleasesOff [] (start flag) p) : ∃ events, exec p [] (start flag) = some (start flag, events) ∧
      ∀ e ∈ events, e.Good :=
  exec_restores p hw hr ⟨nofun, trivial, fun _ => iff_of_true rfl not_mem_nil, List.nodup_nil, rfl⟩

/-- What `Semaphore::down` does: the lock is released to sleep. -/
def down : Program := .locked 0 (.unlocked (.disable .skip))

theorem exec_disciplined_down : WellNested [] down ∧ ReleasesOff [] (start true) down ∧
    ∃ events, exec down [] (start true) = some (start true, events) ∧ ∀ e ∈ events, e.Good := by
  have hw : WellNested [] down := ⟨not_mem_nil, trivial⟩
  have hr : ReleasesOff [] (start true) down := by
    intro s₁ hs₁
    cases hs₁
    exact ⟨rfl, fun _ _ _ _ _ => trivial⟩
  exact ⟨hw, hr, exec_disciplined true hw hr⟩

/-- A lock that is released inside a scope of `EnableInterrupts`. -/
theorem release_inside_enable : WellNested [] (.locked 0 (.enable (.unlocked .skip))) ∧
    exec (.locked 0 (.enable (.unlocked .skip))) [] (start true) = none :=
  ⟨⟨not_mem_nil, trivial⟩, rfl⟩

end Flix.Sync.InterruptFlag

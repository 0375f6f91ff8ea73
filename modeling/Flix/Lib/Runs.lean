import Mathlib.Tactic.Ring

/-!
# Runs of a transition system

A system is a partial step function: `step s a = some s'` when action `a` takes
state `s` to `s'`, and `none` when the action cannot be taken there. A guard
`ok` restricts which actions a run may take in which states.

`Reach` is the set of states such runs visit, and `Reach.invariant` the one
induction every safety result over runs goes through.
-/

namespace Flix

-- What every module takes apart: runs that succeed, and lists.
export Option (bind_eq_some_iff map_eq_some_iff isSome_iff_exists bind_some bind_eq_bind map_some
  mem_unique)
export List (mem_cons mem_cons_self mem_cons_of_mem not_mem_nil mem_singleton mem_append
  mem_append_left mem_append_right mem_map mem_range nodup_cons append_assoc append_nil length_cons
  length_append length_replicate foldlM_cons)

/-- A checked assertion: a step whose assertion fails cannot be taken. -/
def assert (p : Prop) [Decidable p] : Option Unit := if p then some () else none

theorem assert_pos {p : Prop} [Decidable p] (h : p) : assert p = some () := if_pos h

theorem assert_bind_eq_some {β : Type} {p : Prop} [Decidable p] {f : Unit → Option β} {b : β} :
    (assert p).bind f = some b ↔ p ∧ f () = some b := by
  unfold assert
  split <;> simp_all

-- A `do` block that succeeds is taken apart at its first line.
theorem of_bind {α β : Type} {x : Option α} {f : α → Option β} {b : β} (h : (x >>= f) = some b) :
    ∃ a, x = some a ∧ f a = some b :=
  bind_eq_some_iff.mp h

theorem of_assert {β : Type} {p : Prop} [Decidable p] {f : Unit → Option β} {b : β}
    (h : (assert p >>= f) = some b) : p ∧ f () = some b :=
  assert_bind_eq_some.mp h

end Flix

namespace Flix.Runs

variable {σ α : Type}

/-- The states reached from `s₀` by steps that meet the guard. -/
inductive Reach (step : σ → α → Option σ) (ok : σ → α → Prop) (s₀ : σ) : σ → Prop where
  | start : Reach step ok s₀ s₀
  | tail {s s' : σ} {a : α} :
      Reach step ok s₀ s → ok s a → step s a = some s' → Reach step ok s₀ s'

/-- Follow a list of actions, stopping with `none` at the first that cannot be taken. -/
def run (step : σ → α → Option σ) : σ → List α → Option σ
  | s, [] => some s
  | s, a :: as => (step s a).bind (fun s' => run step s' as)

/-- The same, stopping also at the first action that does not meet the guard. -/
def guardedRun (step : σ → α → Option σ) (ok : σ → α → Prop) [∀ s a, Decidable (ok s a)] :
    σ → List α → Option σ
  | s, [] => some s
  | s, a :: as =>
    if ok s a then (step s a).bind (fun s' => guardedRun step ok s' as) else none

variable {step : σ → α → Option σ} {ok : σ → α → Prop} {s₀ : σ}

variable {s : σ}

/-- The invariant rule. What holds at the start and survives every guarded step
holds in every state reached. -/
theorem Reach.invariant {I : σ → Prop} (h0 : I s₀)
    (hstep : ∀ s a s', I s → ok s a → step s a = some s' → I s')
    (h : Reach step ok s₀ s) : I s := by
  induction h with
  | start => exact h0
  | tail _ hok hs ih => exact hstep _ _ _ ih hok hs

theorem Reach.trans {s' : σ} (h : Reach step ok s₀ s) (h' : Reach step ok s s') :
    Reach step ok s₀ s' := by
  induction h' with
  | start => exact h
  | tail _ hok hs ih => exact Reach.tail ih hok hs

/-- A run that can be computed reaches its last state. -/
theorem Reach.of_guardedRun [∀ s a, Decidable (ok s a)] : ∀ {as : List α} {s₀ s : σ},
    guardedRun step ok s₀ as = some s → Reach step ok s₀ s
  | [], s₀, s, h => by
    cases h; exact Reach.start
  | a :: as, s₀, s, h => by
    rw [guardedRun] at h
    split at h
    · obtain ⟨s1, hs, h⟩ := bind_eq_some_iff.mp h
      exact (Reach.tail Reach.start ‹_› hs).trans (Reach.of_guardedRun h)
    · cases h

/-- The same for a guard that does not look at the state. -/
theorem Reach.of_run {as : List α} {s₀ : σ} (hok : ∀ a ∈ as, ∀ s, ok s a)
    (h : run step s₀ as = some s) : Reach step ok s₀ s := by
  induction as generalizing s₀ with
  | nil => cases h; exact Reach.start
  | cons a as ih =>
    obtain ⟨s1, hs, h⟩ := bind_eq_some_iff.mp h
    exact (Reach.tail Reach.start (hok a mem_cons_self s₀) hs).trans
      (ih (fun b hb => hok b (mem_cons_of_mem _ hb)) h)

theorem Reach.mono {ok' : σ → α → Prop} (hok : ∀ s a, ok s a → ok' s a)
    (h : Reach step ok s₀ s) : Reach step ok' s₀ s := by
  induction h with
  | start => exact Reach.start
  | tail _ ho hs ih => exact Reach.tail ih (hok _ _ ho) hs

end Flix.Runs

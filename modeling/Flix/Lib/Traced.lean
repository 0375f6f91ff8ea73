import Flix.Lib.Runs
import Mathlib.Data.List.Basic
import Mathlib.Control.Basic

/-!
# Computations with a trace of their calls

A computation in `Option` that fails says nothing about what it has done before.
Where a property is about each call that a program makes, also in a run that ends
in a failed assertion, the program is written for any monad in which calls can be
noted. In `Option` the notes are lost and the program is the plain one; in
`Traced` they are kept, in order. `result` forgets them again, and commutes with
everything, so that what is shown of the one holds of the other.

`Spec` is the triple for such programs: what holds of each call, of the result,
and when there is one. `Spends` is about resources that are given back one by one:
each that is gone afterwards was given back in exactly one call.
-/

namespace Flix

/-- A computation that may fail, with the calls it has made by then. -/
@[ext]
structure Traced (κ α : Type) where
  result : Option α
  calls : List κ

/-- Monads in which calls can be noted. -/
class Notes (κ : Type) (m : Type → Type) where
  note : κ → m Unit

export Notes (note)

namespace Traced

variable {κ α β σ : Type}

instance : Monad (Traced κ) where
  pure a := ⟨some a, []⟩
  bind x f :=
    match x.result with
    | none => ⟨none, x.calls⟩
    | some a => ⟨(f a).result, x.calls ++ (f a).calls⟩

instance : MonadLift Option (Traced κ) := ⟨fun x => ⟨x, []⟩⟩

instance : Notes κ (Traced κ) := ⟨fun k => ⟨some (), [k]⟩⟩

instance : Notes κ Option := ⟨fun _ => some ()⟩

variable {x : Traced κ α} {f : σ → α → Traced κ σ}

theorem bind_of_none (f : α → Traced κ β) (hx : x.result = none) : x >>= f = ⟨none, x.calls⟩ := by
  simp only [Bind.bind, hx]

theorem bind_of_some (f : α → Traced κ β) {a : α} (hx : x.result = some a) :
    x >>= f = ⟨(f a).result, x.calls ++ (f a).calls⟩ := by
  simp only [Bind.bind, hx]

theorem pure_bind' (a : α) (f : α → Traced κ β) : pure a >>= f = f a := bind_of_some f rfl

theorem lift_some_bind (a : α) (f : α → Traced κ β) : liftM (some a) >>= f = f a :=
  bind_of_some f rfl

instance : LawfulMonad (Traced κ) := LawfulMonad.mk' _
  (by
    intro α x
    show x >>= (fun a => pure (id a)) = x
    cases hx : x.result with
    | none => rw [bind_of_none _ hx, ← hx]
    | some a =>
      rw [bind_of_some _ hx]
      ext1
      · exact hx.symm
      · exact append_nil _)
  pure_bind'
  (by
    intro α β γ x f g
    cases hx : x.result with
    | none => rw [bind_of_none _ hx, bind_of_none _ hx, bind_of_none _ rfl]
    | some a =>
      rw [bind_of_some _ hx, bind_of_some _ hx]
      cases hy : (f a).result with
      | none => rw [bind_of_none _ rfl, bind_of_none _ hy]
      | some b =>
        rw [bind_of_some _ rfl, bind_of_some _ hy, append_assoc])

/-! ## Forgetting the trace -/

@[simp]
theorem result_bind (x : Traced κ α) (f : α → Traced κ β) :
    (x >>= f).result = x.result >>= fun a => (f a).result := by
  cases hx : x.result with
  | none => rw [bind_of_none f hx]; rfl
  | some a => rw [bind_of_some f hx]; rfl

@[simp]
theorem result_lift (x : Option α) : (liftM x : Traced κ α).result = x := rfl

@[simp]
theorem result_ite {p : Prop} [Decidable p] (x y : Traced κ α) :
    (if p then x else y).result = if p then x.result else y.result := by
  split <;> rfl

theorem result_foldlM {g : σ → α → Option σ}
    (h : ∀ s a, (f s a).result = g s a) (l : List α) (s : σ) :
    (l.foldlM f s).result = l.foldlM g s := by
  induction l generalizing s with
  | nil => rfl
  | cons a l ih =>
    rw [foldlM_cons, result_bind, h]
    congr 1
    funext s'
    exact ih s'

/-- What a computation goes on with matters only for the results it can have. -/
theorem bind_congr {f g : α → Traced κ β}
    (h : ∀ a, x.result = some a → f a = g a) : x >>= f = x >>= g := by
  cases hx : x.result with
  | none => rw [bind_of_none f hx, bind_of_none g hx]
  | some a => rw [bind_of_some f hx, bind_of_some g hx, h a hx]

/-- Loops that agree where the invariant holds are the same. -/
theorem foldlM_congr {g : σ → α → Traced κ σ} {l : List α} {s : σ} (I : σ → Prop) (hs : I s)
    (heq : ∀ {s a}, I s → a ∈ l → f s a = g s a)
    (hinv : ∀ {s a s'}, I s → a ∈ l → (g s a).result = some s' → I s') :
    l.foldlM f s = l.foldlM g s := by
  induction l generalizing s with
  | nil => rfl
  | cons a l ih =>
    rw [foldlM_cons, heq hs mem_cons_self]
    refine bind_congr fun s' hs' => ?_
    exact ih (hinv hs mem_cons_self hs') (fun h hm => heq h (mem_cons_of_mem _ hm))
      fun h hm => hinv h (mem_cons_of_mem _ hm)

/-! ## Triples -/

/-- All calls are `P`, the result is `Q`, and there is one if `tot`. -/
structure Spec (tot : Prop) (P : κ → Prop) (Q : α → Prop) (x : Traced κ α) : Prop where
  calls : ∀ k ∈ x.calls, P k
  post : ∀ {a}, x.result = some a → Q a
  total : tot → x.result.isSome

section Spec

variable {tot : Prop} {P : κ → Prop} {Q : α → Prop} {Q' : β → Prop}

theorem Spec.pure {a : α} (ha : Q a) : Spec tot P Q (pure a) where
  calls := fun _ hk => by cases hk
  post := by
    intro b hb
    rwa [← Option.some.inj hb]
  total := fun _ => rfl

theorem Spec.lift {x : Option α} (hpost : ∀ {a}, x = some a → Q a) (htotal : tot → x.isSome) :
    Spec tot P Q (liftM x) where
  calls := fun _ hk => by cases hk
  post := hpost
  total := htotal

theorem Spec.note {k : κ} (hk : P k) : Spec tot P (fun _ => True) (note k : Traced κ Unit) where
  calls := fun _ hk' => mem_singleton.mp hk' ▸ hk
  post := fun _ => trivial
  total := fun _ => rfl

theorem Spec.assert {p : Prop} [Decidable p] (htotal : tot → p) :
    Spec tot P (fun _ => p) (liftM (assert p) : Traced κ Unit) := by
  refine .lift (fun h => ?_) fun ht => by rw [assert_pos (htotal ht)]; rfl
  by_contra hp
  rw [Flix.assert, if_neg hp] at h
  cases h

theorem Spec.bind {x : Traced κ α} {f : α → Traced κ β} (hx : Spec tot P Q x)
    (hf : ∀ {a}, x.result = some a → Q a → Spec tot P Q' (f a)) : Spec tot P Q' (x >>= f) := by
  cases hres : x.result with
  | none =>
    rw [bind_of_none f hres]
    refine ⟨hx.calls, fun h => (Option.some_ne_none _ h.symm).elim, fun ht => ?_⟩
    have := hx.total ht
    rw [hres] at this
    cases this
  | some a =>
    have ha := hf hres (hx.post hres)
    rw [bind_of_some f hres]
    refine ⟨fun k hk => ?_, ha.post, ha.total⟩
    rcases mem_append.mp hk with hk | hk
    · exact hx.calls k hk
    · exact ha.calls k hk

theorem Spec.mono {Q1 : α → Prop} {x : Traced κ α} (hx : Spec tot P Q x)
    (h : ∀ {a}, Q a → Q1 a) : Spec tot P Q1 x :=
  ⟨hx.calls, fun ha => h (hx.post ha), hx.total⟩

/-- A loop, with an invariant that knows what is still to come. -/
theorem Spec.foldlM {f : σ → α → Traced κ σ} {l : List α} {s : σ} (I : List α → σ → Prop)
    (hs : I l s) (hf : ∀ {s a rest}, I (a :: rest) s → Spec tot P (I rest) (f s a)) :
    Spec tot P (I []) (l.foldlM f s) := by
  induction l generalizing s with
  | nil => exact .pure hs
  | cons a l ih =>
    exact (hf hs).bind fun _ hI => ih hI

theorem Spec.foldlM_range {f : σ → Nat → Traced κ σ} {n : Nat} {s : σ} (I : Nat → σ → Prop)
    (hs : I 0 s) (hf : ∀ {s i}, i < n → I i s → Spec tot P (I (i + 1)) (f s i)) :
    Spec tot P (I n) ((List.range n).foldlM f s) := by
  induction n with
  | zero => exact .pure hs
  | succ n ih =>
    rw [List.range_succ, List.foldlM_append]
    refine (ih fun hi => hf (by omega)).bind fun _ hI => ?_
    exact (hf (by omega) hI).bind fun _ hI' => .pure hI'

end Spec

theorem foldlM_pass {l : List α} (hf : ∀ a ∈ l, ∀ s, f s a = pure s)
    (s : σ) : l.foldlM f s = pure s := by
  induction l with
  | nil => rfl
  | cons a l ih =>
    rw [foldlM_cons, hf a mem_cons_self]
    exact ih fun b hb => hf b (mem_cons_of_mem _ hb)

/-- A loop over the numbers below a bound that stops at one of them only. -/
theorem foldlM_range_one {f : σ → Nat → Traced κ σ} {k n : Nat} {s : σ} (hn : n < k)
    (hf : ∀ m < k, m ≠ n → ∀ s, f s m = pure s) :
    ((List.range k).foldlM f s).result = (f s n).result := by
  obtain ⟨j, rfl⟩ : ∃ j, k = n + 1 + j := ⟨k - (n + 1), by omega⟩
  rw [List.range_add, List.range_succ, List.foldlM_append, List.foldlM_append,
    foldlM_pass (fun m hm => hf m (by have := mem_range.mp hm; omega)
      (by have := mem_range.mp hm; omega)), pure_bind', foldlM_cons, result_bind,
    result_bind]
  cases hres : (f s n).result with
  | none => rfl
  | some s' =>
    show ((List.map _ _).foldlM f s').result = _
    rw [foldlM_pass fun m hm => ?_]
    · rfl
    · obtain ⟨i, hi, rfl⟩ := mem_map.mp hm
      have := mem_range.mp hi
      exact hf _ (by omega) (by omega)

/-! ## Giving back -/

section Spends

variable {ι : Type} [DecidableEq ι] (live : σ → ι → Prop) (name : κ → Option ι)

/-- Each resource was given back in one call, or in none and is as it was. -/
def Spends (s : σ) (calls : List κ) (s' : σ) : Prop :=
  ∀ i, ((calls.filterMap name).count i = 1 ∧ live s i ∧ ¬ live s' i) ∨
    ((calls.filterMap name).count i = 0 ∧ (live s' i ↔ live s i))

/-- The same for a computation with a state in its result. -/
def SpendsTo (s : σ) (out : α → σ) (x : Traced κ α) : Prop :=
  ∀ a, x.result = some a → Spends live name s x.calls (out a)

variable {live name} {s s₁ s₂ : σ} {c c' : List κ}

theorem Spends.refl (s : σ) : Spends live name s [] s := fun _ => .inr ⟨rfl, Iff.rfl⟩

theorem Spends.trans (h : Spends live name s c s₁) (h' : Spends live name s₁ c' s₂) :
    Spends live name s (c ++ c') s₂ := by
  intro i
  rw [List.filterMap_append, List.count_append]
  rcases h i with ⟨hc, hs, hs1⟩ | ⟨hc, hiff⟩
  · rcases h' i with ⟨-, hs1', -⟩ | ⟨hc', hiff'⟩
    · exact absurd hs1' hs1
    · exact .inl ⟨by omega, hs, fun hs2 => hs1 (hiff'.mp hs2)⟩
  · rcases h' i with ⟨hc', hs1, hs2⟩ | ⟨hc', hiff'⟩
    · exact .inl ⟨by omega, hiff.mp hs1, hs2⟩
    · exact .inr ⟨by omega, hiff'.trans hiff⟩

theorem SpendsTo.pure {a : α} {out : α → σ} (h : out a = s) :
    SpendsTo live name s out (pure a : Traced κ α) := by
  intro b hb
  rw [← Option.some.inj hb, h]
  exact .refl s

theorem SpendsTo.lift {x : Option α} {out : α → σ}
    (h : ∀ {a}, x = some a → ∀ i, live (out a) i ↔ live s i) :
    SpendsTo live name s out (liftM x : Traced κ α) :=
  fun _ ha i => .inr ⟨rfl, h ha i⟩

theorem SpendsTo.bind {x : Traced κ α} {f : α → Traced κ β} {g : α → σ} {g' : β → σ}
    (hx : SpendsTo live name s g x)
    (hf : ∀ {a}, x.result = some a → SpendsTo live name (g a) g' (f a)) :
    SpendsTo live name s g' (x >>= f) := by
  intro b hb
  cases hres : x.result with
  | none =>
    rw [bind_of_none f hres] at hb
    cases hb
  | some a =>
    rw [bind_of_some f hres] at hb ⊢
    exact (hx a hres).trans (hf hres b hb)

theorem SpendsTo.foldlM {f : σ → α → Traced κ σ} {l : List α}
    (hf : ∀ {s a}, a ∈ l → SpendsTo live name s id (f s a)) (s : σ) :
    SpendsTo live name s id (l.foldlM f s) := by
  induction l generalizing s with
  | nil => exact .pure rfl
  | cons a l ih =>
    exact (hf mem_cons_self).bind fun _ => ih (fun hm => hf (mem_cons_of_mem _ hm)) _

end Spends

end Traced

end Flix

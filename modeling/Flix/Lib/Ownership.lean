import Mathlib.Logic.Basic

/-!
# Exclusive ownership

Holders hold things out of a pool, in which those that are held are marked as used.
Nothing is held twice, and nothing that is held can be taken out of the pool again.
What a program does with such a pool is one of four things: it takes something that
was not used, hands something over from one holder to another, drops something, or
gives it back. Each keeps the discipline, on the conditions below.
-/

namespace Flix

variable {H F : Type*} {holds holds' : H → F → Prop} {used used' : F → Prop}

/-- Whatever is held is marked, and held once. -/
structure Exclusive (holds : H → F → Prop) (used : F → Prop) : Prop where
  marked : ∀ {x f}, holds x f → used f
  unique : ∀ {x y f}, holds x f → holds y f → x = y

namespace Exclusive

theorem drop (h : Exclusive holds used) (hsub : ∀ {x f}, holds' x f → holds x f)
    (hused : ∀ {x f}, holds' x f → used f → used' f) : Exclusive holds' used' where
  marked := fun hx => hused hx (h.marked (hsub hx))
  unique := fun hx hy => h.unique (hsub hx) (hsub hy)

/-- Things are taken that were not used, each by one. -/
theorem takeAll (h : Exclusive holds used) (new : H → F → Prop)
    (hnew : ∀ {x f}, new x f → ¬ used f) (hone : ∀ {x y f}, new x f → new y f → x = y)
    (hsub : ∀ {x f}, holds' x f → holds x f ∨ new x f) (hused : ∀ {f}, used f → used' f)
    (hmark : ∀ {x f}, new x f → used' f) : Exclusive holds' used' where
  marked := by
    intro x f hx
    rcases hsub hx with hx | hx
    · exact hused (h.marked hx)
    · exact hmark hx
  unique := by
    intro x y f hx hy
    rcases hsub hx with hx | hx <;> rcases hsub hy with hy | hy
    · exact h.unique hx hy
    · exact absurd (h.marked hx) (hnew hy)
    · exact absurd (h.marked hy) (hnew hx)
    · exact hone hx hy

variable {g : F}

theorem take (h : Exclusive holds used) {z : H} (hg : ¬ used g)
    (hsub : ∀ {x f}, holds' x f → holds x f ∨ (x = z ∧ f = g))
    (hused : ∀ {f}, used f ∨ f = g → used' f) : Exclusive holds' used' :=
  h.takeAll (fun x f => x = z ∧ f = g) (fun hx => hx.2 ▸ hg)
    (fun hx hy => hx.1.trans hy.1.symm) hsub (fun hf => hused (.inl hf))
    fun hx => hused (.inr hx.2)

theorem handOver (h : Exclusive holds used) {y z : H} (hy : holds y g)
    (hsub : ∀ {x f}, holds' x f → (holds x f ∧ ¬ (x = y ∧ f = g)) ∨ (x = z ∧ f = g))
    (hused : ∀ {f}, used f → used' f) : Exclusive holds' used' where
  marked := by
    intro x f hx
    rcases hsub hx with ⟨hx, -⟩ | ⟨-, rfl⟩
    · exact hused (h.marked hx)
    · exact hused (h.marked hy)
  unique := by
    intro x x' f hx hx'
    rcases hsub hx with ⟨hx, hne⟩ | ⟨rfl, rfl⟩ <;> rcases hsub hx' with ⟨hx', hne'⟩ | ⟨rfl, hf⟩
    · exact h.unique hx hx'
    · subst hf
      exact absurd ⟨h.unique hx hy, rfl⟩ hne
    · exact absurd ⟨h.unique hx' hy, rfl⟩ hne'
    · rfl

theorem giveBack (h : Exclusive holds used) (hg : ∀ x, ¬ holds x g)
    (hused : ∀ {f}, used f → f ≠ g → used' f) : Exclusive holds used' where
  marked := fun hx => hused (h.marked hx) fun hf => hg _ (hf ▸ hx)
  unique := h.unique

end Exclusive

end Flix

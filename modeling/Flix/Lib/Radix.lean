import Mathlib.Logic.Function.Basic

/-!
# Radix trees in a store

Nodes live in a store under numbers. A node has a row of entries and a row of
slots, each of which may name another node. A key is a list of indices: all but
the last lead from a root through the slots, and the last selects an entry of the
node arrived at. Different roots may share nodes.

What the layer above needs to know is what an update does to the entries as they
are seen from a root. `leaf` is that view, with a default where the path ends
early, and there is one lemma for each update:

* a new blank node is not seen at all;
* a new entry is seen by the keys that lead to it;
* naming a blank node in a slot wipes what was seen through that slot, and nothing
  else.

The last one needs the node to be at one depth below the root, so that a path cannot
go through the slot twice.
-/

namespace Flix.Radix

open Function

variable {ε : Type}

structure Node (ε : Type) where
  entries : Nat → ε
  next : Nat → Option Nat

abbrev Store (ε : Type) := Nat → Option (Node ε)

/-- A node with the same entry everywhere and no successor. -/
def Node.blank (z : ε) : Node ε := ⟨fun _ => z, fun _ => none⟩

/-- The node that a path leads to. -/
def follow (T : Store ε) : Nat → List Nat → Option Nat
  | t, [] => some t
  | t, i :: is => (T t).bind fun n => (n.next i).bind fun u => follow T u is

/-- The entry a key leads to, or `z`. -/
def leaf (z : ε) (T : Store ε) (r : Nat) (p : List Nat) (i : Nat) : ε :=
  match (follow T r p).bind T with
  | none => z
  | some n => n.entries i

def setEntry (T : Store ε) (t i : Nat) (e : ε) : Store ε :=
  update T t ((T t).map fun n => { n with entries := update n.entries i e })

def setNext (T : Store ε) (t i u : Nat) : Store ε :=
  update T t ((T t).map fun n => { n with next := update n.next i (some u) })

/-! ## Paths -/

section Paths

variable {T : Store ε} {r t u i j : Nat} {p q : List Nat}

theorem follow_cons {n : Node ε} (h : T r = some n) :
    follow T r (i :: p) = (n.next i).bind fun u => follow T u p := by
  rw [follow, h, Option.bind_some]

theorem follow_append : follow T r (p ++ q) = (follow T r p).bind fun t => follow T t q := by
  induction p generalizing r with
  | nil => rfl
  | cons i p ih =>
    rw [List.cons_append, follow, follow, Option.bind_assoc]
    congr 1
    funext n
    rw [Option.bind_assoc]
    congr 1
    funext u
    exact ih

theorem follow_snoc {n : Node ε} (h : follow T r p = some t) (hn : T t = some n) :
    follow T r (p ++ [i]) = n.next i := by
  rw [follow_append, h, Option.bind_some, follow_cons hn]
  cases n.next i <;> rfl

/-- Stores that agree on the successors have the same paths. -/
theorem follow_congr {T' : Store ε} (h : ∀ t, (T' t).map (·.next) = (T t).map (·.next)) :
    follow T' r p = follow T r p := by
  induction p generalizing r with
  | nil => rfl
  | cons i p ih =>
    have hr := h r
    rw [follow, follow]
    cases hT : T r with
    | none =>
      rw [hT] at hr
      rw [Option.map_eq_none_iff.mp hr]
      rfl
    | some n =>
      rw [hT] at hr
      obtain ⟨n', hn', hnext⟩ := Option.map_eq_some_iff.mp hr
      rw [hn', Option.bind_some, hnext]
      congr 1
      funext u
      exact ih

end Paths

/-! ## Updates -/

section Updates

variable {z e : ε} {T : Store ε} {r t u i j : Nat} {p q : List Nat}

variable {n : Node ε}

theorem leaf_of_follow (h : follow T r p = some t) (hn : T t = some n) :
    leaf z T r p j = n.entries j := by
  rw [leaf, h, Option.bind_some, hn]

theorem leaf_of_none (h : follow T r p = none) : leaf z T r p j = z := by
  rw [leaf, h, Option.bind_none]

/-- A blank node under a free number changes no path. -/
theorem follow_new (h : T u = none) :
    follow (update T u (some (Node.blank z))) r p = follow T r p := by
  induction p generalizing r with
  | nil => rfl
  | cons i p ih =>
    by_cases hr : r = u
    · subst hr
      rw [follow, follow, update_self, h]
      rfl
    · rw [follow, update_of_ne hr]
      congr 1
      funext n
      congr 1
      funext v
      exact ih

/-- It is not seen. -/
theorem leaf_new (h : T u = none) :
    leaf z (update T u (some (Node.blank z))) r p j = leaf z T r p j := by
  rw [leaf, leaf, follow_new h]
  cases hf : follow T r p with
  | none => rfl
  | some t =>
    rw [Option.bind_some, Option.bind_some]
    by_cases ht : t = u
    · rw [ht, update_self, h]
      rfl
    · rw [update_of_ne ht]

theorem setEntry_self (h : T t = some n) :
    setEntry T t i e t = some { n with entries := update n.entries i e } := by
  rw [setEntry, update_self, h, Option.map_some]

theorem setEntry_of_ne (h : u ≠ t) : setEntry T t i e u = T u := by
  rw [setEntry, update_of_ne h]

theorem follow_setEntry : follow (setEntry T t i e) r p = follow T r p := by
  refine follow_congr fun u => ?_
  by_cases hu : u = t
  · subst hu
    rw [setEntry, update_self, Option.map_map]
    rfl
  · rw [setEntry_of_ne hu]

/-- A new entry is seen where the key leads to it. -/
theorem leaf_setEntry (ht : (T t).isSome) :
    leaf z (setEntry T t i e) r p j
      = if follow T r p = some t ∧ j = i then e else leaf z T r p j := by
  obtain ⟨n, hn⟩ := Option.isSome_iff_exists.mp ht
  cases hf : follow T r p with
  | none => rw [leaf_of_none (by rw [follow_setEntry, hf]), leaf_of_none hf, if_neg (by simp)]
  | some v =>
    by_cases hv : v = t
    · subst hv
      rw [leaf_of_follow (by rw [follow_setEntry, hf]) (setEntry_self hn), leaf_of_follow hf hn]
      by_cases hj : j = i
      · subst hj
        simp
      · simp [hj]
    · rw [if_neg (by simp [hv]), leaf, leaf, follow_setEntry, hf, Option.bind_some,
        Option.bind_some, setEntry_of_ne hv]

theorem setNext_self (h : T t = some n) :
    setNext T t i u t = some { n with next := update n.next i (some u) } := by
  rw [setNext, update_self, h, Option.map_some]

theorem setNext_of_ne {v : Nat} (h : v ≠ t) : setNext T t i u v = T v := by
  rw [setNext, update_of_ne h]

/-- The path goes through slot `i` of node `t`. -/
def Via (T : Store ε) (t i r : Nat) (p : List Nat) : Prop :=
  ∃ q rest, p = q ++ i :: rest ∧ follow T r q = some t

theorem follow_setNext_of_not_via (h : ¬ Via T t i r p) :
    follow (setNext T t i u) r p = follow T r p := by
  induction p generalizing r with
  | nil => rfl
  | cons j p ih =>
    -- the rest of the path does not go through the slot either
    have hrest : ∀ {n v}, T r = some n → n.next j = some v → ¬ Via T t i v p := by
      rintro n v hn hv ⟨q, rest, rfl, hq⟩
      exact h ⟨j :: q, rest, rfl, by rw [follow_cons hn, hv, Option.bind_some, hq]⟩
    cases hT : T r with
    | none =>
      by_cases hr : r = t
      · rw [follow, follow, hr, setNext, update_self, ← hr, hT]
        rfl
      · rw [follow, follow, setNext_of_ne hr, hT]
        rfl
    | some n =>
      have hnext : ∃ n', setNext T t i u r = some n' ∧ n'.next j = n.next j := by
        by_cases hr : r = t
        · subst hr
          have hj : j ≠ i := fun e => h ⟨[], p, by rw [e]; rfl, rfl⟩
          exact ⟨_, setNext_self hT, update_of_ne hj ..⟩
        · exact ⟨n, by rw [setNext_of_ne hr, hT], rfl⟩
      obtain ⟨n', hn', hj⟩ := hnext
      rw [follow_cons hn', follow_cons hT, hj]
      cases hv : n.next j with
      | none => rfl
      | some v => exact ih (hrest hT hv)

/-- A path through the slot goes on at the node it names now. -/
theorem follow_setNext_via
    (hlen : ∀ {q q'}, follow T r q = some t → follow T r q' = some t → q.length = q'.length)
    (ht : (T t).isSome) (hq : follow T r q = some t) :
    follow (setNext T t i u) r (q ++ i :: p) = follow (setNext T t i u) u p := by
  obtain ⟨n, hn⟩ := Option.isSome_iff_exists.mp ht
  have hbefore : follow (setNext T t i u) r q = some t := by
    rw [follow_setNext_of_not_via, hq]
    -- no proper part of the path has the same length
    rintro ⟨q', rest, rfl, hq'⟩
    have h := hlen hq hq'
    rw [List.length_append, List.length_cons] at h
    omega
  rw [follow_append, hbefore, Option.bind_some, follow_cons (setNext_self hn)]
  show (update n.next i (some u) i).bind _ = _
  rw [update_self, Option.bind_some]

/-- A node that no path leads to can be anything. -/
theorem follow_update {x : Option (Node ε)} (h : ∀ q, follow T r q ≠ some t) :
    follow (update T t x) r p = follow T r p := by
  induction p generalizing r with
  | nil => rfl
  | cons j p ih =>
    have hr : r ≠ t := fun e => h [] (by rw [e]; rfl)
    cases hT : T r with
    | none => rw [follow, follow, update_of_ne hr, hT]; rfl
    | some n =>
      rw [follow_cons (show update T t x r = some n by rw [update_of_ne hr, hT]),
        follow_cons hT]
      cases hv : n.next j with
      | none => rfl
      | some v =>
        refine ih fun q hq => h (j :: q) ?_
        rw [follow_cons hT, hv, Option.bind_some, hq]

theorem leaf_update {x : Option (Node ε)} (h : ∀ q, follow T r q ≠ some t) :
    leaf z (update T t x) r p j = leaf z T r p j := by
  rw [leaf, leaf, follow_update h]
  cases hf : follow T r p with
  | none => rfl
  | some v =>
    have hv : v ≠ t := fun e => h p (by rw [hf, e])
    rw [Option.bind_some, Option.bind_some, update_of_ne hv]

theorem leaf_of_via (hn : T t = some n) (hi : n.next i = none)
    (h : Via T t i r p) : leaf z T r p j = z := by
  obtain ⟨q, rest, rfl, hq⟩ := h
  refine leaf_of_none ?_
  rw [follow_append, hq, Option.bind_some, follow_cons hn, hi, Option.bind_none]

end Updates

end Flix.Radix

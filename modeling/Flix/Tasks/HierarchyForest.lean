import Flix.Tasks.HierarchyRuns

/-!
# The hierarchy stays a forest

From task 1 alone, and in whatever order tasks are added, exit and are waited for:
between operations every task is in the list of its parent and in no other, and the
tasks without a parent are those `addTask` gives none, with a number that is not above
1.

A child that is waited for leaves the list of its parent, and nothing else changes. That
is so for a child without children of its own only: "making orphans is not implemented".
-/

namespace Flix.Tasks

open Function Runs Siblings

/-! ## What a step does to the tree -/

/-- What a step of `x` does to the tree. -/
inductive TreeStep (T : Tree) (x : Tid) : Tree → Prop where
  | same : TreeStep T x T
  | insert (n : Tid) : n ∉ T.tasks → TreeStep T x (T.insert n (if 1 < n then some x else none))
  | link (c : Tid) (h : Tid → HierarchyHolder) : c ∈ T.tasks → T.parent c = some x →
      link T.hh x c = some h → TreeStep T x { T with hh := h }
  | unlink (t : Tid) (h : Tid → HierarchyHolder) :
      (∀ u, T.prev t = some u ∨ T.next t = some u → T.parent u = some x) →
      unlink T.hh t = some h → TreeStep T x { T with hh := h }
  | erase (t : Tid) : T.parent t = some x → TreeStep T x { T with tasks := T.tasks.erase t }
  | exit : x ≠ 1 → TreeStep T x { T with zombie := update T.zombie x true }

section

variable {s s' : State} {kids : Tid → List Tid} {x m t : Tid} {p : Pc} {T T' : Tree}

theorem lock_tree (hl : lock s x m p = some s') : s'.tree = s.tree := by
  obtain ⟨-, hl⟩ := of_assert hl
  cases hl
  rfl

theorem lockIf_tree {o : Option Tid} (hl : lockIf s x o p = some s') : s'.tree = s.tree := by
  cases o with
  | some m => exact lock_tree hl
  | none =>
    cases hl
    rfl

theorem unlock_tree {i : Nat} {o : Option State} (hu : unlock s x i o = some s') :
    s'.tree = s.tree ∨ o = some s' := by
  unfold unlock at hu
  split at hu
  · exact .inr hu
  · obtain ⟨m, -, hu⟩ := of_bind hu
    cases hu
    exact .inl rfl

theorem waitFor_tree (hw : waitFor s x t = some s') : s'.tree = s.tree := by
  unfold waitFor at hw
  split at hw
  · obtain ⟨q, -, hw⟩ := of_bind hw
    split at hw <;> obtain rfl := Option.some.inj hw <;> rfl
  · cases hw
    rfl

theorem TreeStep.of_eq (h : T' = T) : TreeStep T x T' := h ▸ .same

theorem advance_tree {i : Nat} (hi : Inv s kids) (ha : advance s x i = some s') :
    TreeStep s.tree x s'.tree := by
  have hst := hi.stage x
  unfold advance at ha
  split at ha
  · cases ha
  · exact .of_eq (lock_tree ha)
  · exact .of_eq (lock_tree ha)
  · exact .of_eq (lockIf_tree ha)
  · rename_i c hpc
    rw [hpc] at hst
    obtain ⟨h, hl, ha⟩ := of_bind ha
    cases ha
    exact .link c h hst.1 hst.2.1 hl
  · rcases unlock_tree ha with htree | hdone
    · exact .of_eq htree
    · cases hdone
      exact .same
  · exact .of_eq (lock_tree ha)
  · cases ha
    exact .same
  · rcases unlock_tree ha with htree | hdone
    · exact .of_eq htree
    · cases hdone
      exact .same
  · rcases unlock_tree ha with htree | hdone
    · exact .of_eq htree
    · exact .of_eq (waitFor_tree hdone)
  · obtain ⟨-, ha⟩ := of_assert ha
    obtain ⟨-, ha⟩ := of_assert ha
    cases ha
    exact .same
  · exact .of_eq (lockIf_tree ha)
  · exact .of_eq (lockIf_tree ha)
  · exact .of_eq (lock_tree ha)
  · exact .of_eq (lockIf_tree ha)
  · exact .of_eq (lock_tree ha)
  · cases ha
    exact .same
  · rename_i t hpc
    obtain ⟨h, hl, ha⟩ := of_bind ha
    cases ha
    obtain ⟨-, hprev, hnext⟩ := hi.neighbour hpc (by simp)
    have hx := (hi.busy x (by simp [hpc])).1
    refine .unlink t h (fun u hu => ?_) hl
    rcases hu with hu | hu
    · exact (hi.of_mem_kids hx (hprev u hu).1).2.1
    · exact (hi.of_mem_kids hx (hnext u hu).1).2.1
  · rename_i t hpc
    rw [hpc] at hst
    rcases unlock_tree ha with htree | hdone
    · exact .of_eq htree
    · cases hdone
      exact .erase t hst.2.1

theorem step_tree {a : Action} (hi : Inv s kids) (hs : step s a = some s') :
    TreeStep s.tree a.by s'.tree := by
  obtain ⟨⟨hx, hlive⟩, hs⟩ := of_assert hs
  cases a with
  | addTask x =>
    obtain ⟨hpc, hs⟩ := of_assert hs
    obtain ⟨n, hn, hs⟩ := of_bind hs
    cases hs
    exact .insert n (updateNextTid_not_mem hn)
  | wait x t =>
    obtain ⟨-, hs⟩ := of_assert hs
    unfold wait at hs
    split at hs
    · cases hs
      exact .same
    · exact .of_eq (waitFor_tree hs)
  | terminateCurrentTask x =>
    obtain ⟨-, hs⟩ := of_assert hs
    obtain ⟨hx, hs⟩ := of_assert hs
    cases hs
    exact .exit hx
  | advance x i => exact advance_tree hi hs

/-! ## The tasks without a parent -/

/-- Task 1 is there and has not exited. The tasks above it have a parent, and the others are in no
list. -/
structure Rooted (T : Tree) : Prop where
  one : 1 ∈ T.tasks ∧ T.zombie 1 = false
  parent : ∀ t ∈ T.tasks, 1 < t → T.parent t ≠ none
  root : ∀ t ∈ T.tasks, t ≤ 1 → T.parent t = none ∧ T.next t = none ∧ T.prev t = none

/-- The links of tasks with a parent may change, as long as the parents stay. -/
theorem Rooted.relink (hr : Rooted T) {h : Tid → HierarchyHolder}
    (hparent : ∀ u, (h u).parent = T.parent u)
    (hlinks : ∀ u ∈ T.tasks, T.parent u = none →
      (h u).nextSibling = T.next u ∧ (h u).prevSibling = T.prev u) :
    Rooted { T with hh := h } := by
  refine ⟨hr.one, fun u hu hlt => ?_, fun u hu hle => ?_⟩
  · show (h u).parent ≠ none
    rw [hparent]
    exact hr.parent u hu hlt
  · obtain ⟨hp, hn, hv⟩ := hr.root u hu hle
    obtain ⟨hn', hv'⟩ := hlinks u hu hp
    exact ⟨(hparent u).trans hp, hn'.trans hn, hv'.trans hv⟩

theorem TreeStep.rooted (hi : Inv s kids) (hr : Rooted s.tree) (hs : TreeStep s.tree x T') :
    Rooted T' := by
  -- a child in a list has a parent
  have hkid : ∀ {q u}, q ∈ s.tree.tasks → u ∈ kids q → s.tree.parent u ≠ none := by
    intro q u hq hu hn
    rw [(hi.of_mem_kids hq hu).2.1] at hn
    cases hn
  cases hs with
  | same => exact hr
  | insert n hn =>
    have hne : ∀ {u}, u ∈ s.tree.tasks → u ≠ n := fun hu he => hn (he ▸ hu)
    have hold : ∀ {u}, u ∈ s.tree.tasks →
        (s.tree.insert n (if 1 < n then some x else none)).hh u = s.tree.hh u :=
      fun hu => update_of_ne (hne hu) _ _
    have hnew : (s.tree.insert n (if 1 < n then some x else none)).hh n
        = newHolder (if 1 < n then some x else none) := update_self ..
    refine ⟨⟨mem_cons_of_mem _ hr.one.1, ?_⟩, fun u hu hlt => ?_, fun u hu hle => ?_⟩
    · exact (update_of_ne (hne hr.one.1) _ _).trans hr.one.2
    · rcases mem_cons.mp hu with rfl | hu
      · rw [Tree.parent, hnew, if_pos hlt]
        exact Option.some_ne_none _
      · rw [Tree.parent, hold hu]
        exact hr.parent u hu hlt
    · rcases mem_cons.mp hu with rfl | hu
      · rw [Tree.parent, Tree.next, Tree.prev, hnew, if_neg (Nat.not_lt.mpr hle)]
        exact ⟨rfl, rfl, rfl⟩
      · rw [Tree.parent, Tree.next, Tree.prev, hold hu]
        exact hr.root u hu hle
  | link c h hc hpar hl =>
    obtain ⟨-, -, hspec⟩ := link_spec hl
    have hx := hi.forest.parent c hc x hpar
    refine hr.relink (fun u => (hspec u).1) fun u hu hnone => ⟨?_, ?_⟩
    · rw [(hspec u).2.2.1, if_neg]
      · rfl
      · rintro rfl
        rw [hpar] at hnone
        cases hnone
    · rw [(hspec u).2.2.2, if_neg]
      · rfl
      · intro hf
        exact hkid hx ((hi.forest.list x hx).first_mem hf) hnone
  | unlink t h hnb hl =>
    obtain ⟨q, -, -, hspec⟩ := unlink_spec hl
    have hne : ∀ {u}, s.tree.prev t = some u ∨ s.tree.next t = some u → s.tree.parent u ≠ none := by
      intro u hu hn
      rw [hnb u hu] at hn
      cases hn
    refine hr.relink (fun u => (hspec u).1) fun u hu hnone => ⟨?_, ?_⟩
    · rw [(hspec u).2.2.1, if_neg]
      · rfl
      · exact fun hu => hne (.inl hu) hnone
    · rw [(hspec u).2.2.2, if_neg]
      · rfl
      · exact fun hu => hne (.inr hu) hnone
  | erase t hpar =>
    refine ⟨⟨?_, hr.one.2⟩, fun u hu => hr.parent u (List.mem_of_mem_erase hu),
      fun u hu => hr.root u (List.mem_of_mem_erase hu)⟩
    have hne : 1 ≠ t := by
      rintro rfl
      rw [(hr.root 1 hr.one.1 (Nat.le_refl 1)).1] at hpar
      cases hpar
    exact (List.mem_erase_of_ne hne).mpr hr.one.1
  | exit hx =>
    exact ⟨⟨hr.one.1, (update_of_ne (Ne.symm hx) _ _).trans hr.one.2⟩, hr.parent, hr.root⟩

theorem rooted_boot : Rooted boot.tree where
  one := ⟨List.mem_singleton_self 1, rfl⟩
  parent t ht hlt := by
    rw [mem_singleton.mp ht] at hlt
    exact absurd hlt (Nat.lt_irrefl 1)
  root _ _ _ := ⟨rfl, rfl, rfl⟩

theorem rooted_reach (hs : Reach step (fun _ _ => True) boot s) :
    (∃ kids, Inv s kids) ∧ Rooted s.tree := by
  refine hs.invariant (I := fun s => (∃ kids, Inv s kids) ∧ Rooted s.tree)
    ⟨⟨_, quiet_boot.inv forest_boot⟩, rooted_boot⟩ ?_
  rintro s a s' ⟨⟨kids, hi⟩, hr⟩ - hstep
  exact ⟨inv_step hi hstep, (step_tree hi hstep).rooted hi hr⟩

/-! ## Removing a child -/

/-- `x` has taken `t`, which has no children, out of its list, and nothing else is different. -/
structure Removed (s s' : State) (x t : Tid) : Prop where
  lists : ∃ kids, Forest s.tree (Loose s) kids ∧ t ∈ kids x ∧ kids t = [] ∧
    Forest s'.tree (Loose s') (update kids x ((kids x).erase t))
  tasks : s'.tree.tasks = s.tree.tasks
  parent : s'.tree.parent = s.tree.parent
  zombie : s'.tree.zombie = s.tree.zombie

theorem advance_unlink {i : Nat} (hi : Inv s kids) (hpc : s.pc x = .remove t .unlink) :
    step s (.advance x i) = (unlink s.tree.hh t).bind fun h => some { s with
      tree := { s.tree with hh := h }, pc := update s.pc x (.remove t .unlock) } := by
  have hbusy : (Action.advance x i).by ∈ s.tree.tasks ∧
      s.tree.zombie (Action.advance x i).by = false := hi.busy x (by simp [hpc])
  rw [step, assert_pos hbusy]
  show advance s x i = _
  rw [advance, hpc]
  rfl

/-- Without children, the list of the parent changes and nothing else; with children, there is
no step. -/
theorem removed_or_orphans {i : Nat} (hi : Inv s kids) (hpc : s.pc x = .remove t .unlink) :
    (s.tree.first t = none → ∃ s', step s (.advance x i) = some s' ∧ Removed s s' x t) ∧
      (s.tree.first t ≠ none → step s (.advance x i) = none) := by
  have hst := hi.stage x
  rw [hpc] at hst
  obtain ⟨ht, hpar, -⟩ := hst
  have hiff := unlink_eq_none_iff hpar (hi.forest.ne_of_parent ht hpar)
  rw [advance_unlink hi hpc]
  refine ⟨fun hfirst => ?_, fun hfirst => ?_⟩
  · have hkids : kids t = [] := List.head?_eq_none_iff.mp ((hi.forest.list t ht).first ▸ hfirst)
    obtain ⟨h, hl⟩ := Option.ne_none_iff_exists'.mp (hiff.not.mpr (not_not.mpr hfirst))
    rw [hl]
    obtain ⟨q, -, -, hspec⟩ := unlink_spec hl
    exact ⟨_, rfl, ⟨kids, hi.forest, (hi.neighbour hpc (by simp)).1, hkids,
      (hi.unlink hpc hl).forest⟩, rfl, funext fun u => (hspec u).1, rfl⟩
  · rw [hiff.mpr hfirst]
    rfl

/-- The other steps of a removal leave the tree as it is, but for the last one, which takes the
task out of `_tasks`. -/
theorem remove_tree {i : Nat} {place : RemovePlace} (hpc : s.pc x = .remove t place)
    (hplace : place ≠ .unlink) (hs : step s (.advance x i) = some s') :
    s'.tree = s.tree ∨
      place = .unlock ∧ s'.tree = { s.tree with tasks := s.tree.tasks.erase t } := by
  obtain ⟨-, hs⟩ := of_assert hs
  replace hs : advance s x i = some s' := hs
  rw [advance, hpc] at hs
  cases place with
  | parent => exact .inl (lockIf_tree hs)
  | prev => exact .inl (lockIf_tree hs)
  | self => exact .inl (lock_tree hs)
  | next => exact .inl (lockIf_tree hs)
  | child cur =>
    cases cur with
    | some c => exact .inl (lock_tree hs)
    | none =>
      cases hs
      exact .inl rfl
  | unlink => exact absurd rfl hplace
  | unlock =>
    rcases unlock_tree hs with htree | hdone
    · exact .inl htree
    · cases hdone
      exact .inr ⟨rfl, rfl⟩

end

/-- **The hierarchy stays a forest**, from task 1 alone and in every run of `addTask`,
`terminateCurrentTask` and `wait`. A removal by `wait` changes the list of the parent and nothing
else, and goes no further for a task with children. -/
theorem hierarchy_stays_forest {s : State} (hs : Reach step (fun _ _ => True) boot s) :
    (Quiet s → ∃ kids, Forest s.tree (fun _ => False) kids) ∧ Rooted s.tree ∧
      (∀ x t i, s.pc x = .remove t .unlink →
        (s.tree.first t = none → ∃ s', step s (.advance x i) = some s' ∧ Removed s s' x t) ∧
          (s.tree.first t ≠ none → step s (.advance x i) = none)) ∧
      ∀ x t i place s', s.pc x = .remove t place → place ≠ .unlink →
        step s (.advance x i) = some s' → s'.tree = s.tree ∨
          place = .unlock ∧ s'.tree = { s.tree with tasks := s.tree.tasks.erase t } := by
  obtain ⟨⟨kids, hi⟩, hr⟩ := rooted_reach hs
  refine ⟨fun hq => ⟨kids, ?_⟩, hr, fun x t i hpc => removed_or_orphans hi hpc,
    fun x t i place s' hpc hplace hstep => remove_tree hpc hplace hstep⟩
  exact hi.forest.congr fun t => iff_false_intro (hq.not_loose t)

/-- Task 1 adds task 2, which exits, and waits for it. -/
theorem hierarchy_stays_forest_wait : ∃ s, Reach step (fun _ _ => True) boot s ∧
    ∃ s', step s (.advance 1) = some s' ∧ Removed s s' 1 2 := by
  have hrun : (run step boot [.addTask 1, .advance 1, .advance 1, .advance 1, .advance 1, .advance 1,
      .advance 1, .advance 1, .terminateCurrentTask 2, .wait 1 2, .advance 1, .advance 1, .advance 1,
      .advance 1, .advance 1, .advance 1]).isSome := rfl
  obtain ⟨s, hs⟩ := isSome_iff_exists.mp hrun
  have hreach : Reach step (fun _ _ => True) boot s := Reach.of_run (fun _ _ _ => trivial) hs
  refine ⟨s, hreach, ((hierarchy_stays_forest hreach).2.2.1 1 2 0 ?_).1 ?_⟩
  all_goals
    cases hs
    rfl

/-- Task 2 adds task 3 and exits before it: task 1 waits for task 2, and the removal stops at the
assertion. -/
theorem orphans_not_removed : ¬ ∀ s, Reach step (fun _ _ => True) boot s → ∀ x t,
    s.pc x = .remove t .unlink → ∃ s', step s (.advance x) = some s' := by
  intro h
  have hrun : (run step boot [.addTask 1, .advance 1, .advance 1, .advance 1, .advance 1, .advance 1,
      .advance 1, .advance 1, .addTask 2, .advance 2, .advance 2, .advance 2, .advance 2, .advance 2,
      .advance 2, .advance 2, .terminateCurrentTask 2, .wait 1 2, .advance 1, .advance 1, .advance 1,
      .advance 1, .advance 1, .advance 1, .advance 1]).isSome := rfl
  obtain ⟨s, hs⟩ := isSome_iff_exists.mp hrun
  have hreach : Reach step (fun _ _ => True) boot s := Reach.of_run (fun _ _ _ => trivial) hs
  obtain ⟨s', hstep⟩ := h s hreach 1 2 (by obtain rfl := Option.some.inj hs; rfl)
  cases hs
  cases hstep

end Flix.Tasks

import Mathlib.Data.Nat.Find
import Mathlib.Data.List.Perm.Subperm
import Flix.Tasks.HierarchyRuns

/-!
# The numbers of the tasks

`addTask` gives a new task the first number from `_nextTid` on that no task has. The
number 0 stands for "no task", and `_nextTid` starts at 1, but nothing keeps the search
from 0 later: `++_nextTid` wraps, and 0 is a number that no task has.

That happens as soon as no number from `_nextTid` to the last one is free, and only then.
It takes a machine that has started four billion tasks, not one that has as many at a
time: in `Alone.cycle` task 1 starts one after the other, and waits for each before the
next.
-/

namespace Flix.Tasks

open Function Runs

/-- The search of `addTask` does not have to pass the last number: there is a free one from
`_nextTid` on, which is not 0 itself. -/
def TidLeft (s : State) : Prop :=
  s.nextTid ≠ 0 ∧ ∃ n, s.nextTid ≤ n ∧ n < 2 ^ 32 ∧ n ∉ s.tree.tasks

/-- Every new task of a run is added while there is a number left. -/
def AddsInTime (s : State) : Action → Prop
  | .addTask _ => TidLeft s
  | _ => True

/-- The table has the task `n` more, which is a new and valid number, and is otherwise as it
was. -/
structure Added (s s' : State) (n : Tid) : Prop where
  fresh : n ∉ s.tree.tasks
  valid : n ≠ 0 ∧ n < 2 ^ 32
  tasks : s'.tree.tasks = n :: s.tree.tasks
  others : ∀ t ∈ s.tree.tasks, s'.tree.hh t = s.tree.hh t ∧ s'.tree.zombie t = s.tree.zombie t

/-! ## The search -/

section Search

variable {tasks : List Tid} {m n : Nat}

theorem updateNextTid_eq : ∀ {fuel m : Nat}, m ≤ n → n - m < fuel → n < 2 ^ 32 → n ∉ tasks →
    (∀ k, m ≤ k → k < n → k ∈ tasks) → updateNextTid tasks fuel m = some n
  | 0, _, _, hfuel, _, _, _ => absurd hfuel (Nat.not_lt_zero _)
  | fuel + 1, m, hle, hfuel, hlt, hn, hused => by
    rw [updateNextTid]
    rcases Nat.eq_or_lt_of_le hle with rfl | hmn
    · rw [if_neg hn]
    · have hnowrap : (m + 1) % 2 ^ 32 = m + 1 := Nat.mod_eq_of_lt (by omega)
      rw [if_pos (hused m (Nat.le_refl m) hmn), hnowrap]
      exact updateNextTid_eq hmn (by omega) hlt hn fun k hk => hused k (by omega)

/-- Numbers that are all in use are not more than there are tasks. -/
theorem used_le_length (hused : ∀ k, m ≤ k → k < n → k ∈ tasks) : n - m ≤ tasks.length := by
  have hsub : List.range' m (n - m) ⊆ tasks := by
    intro k hk
    have hk' := List.mem_range'_1.mp hk
    exact hused k hk'.1 (by omega)
  have hle := (List.subperm_of_subset List.nodup_range' hsub).length_le
  rwa [List.length_range'] at hle

/-- The first free number, and the rounds that `addTask` allows are enough to find it. -/
theorem updateNextTid_left (hmn : m ≤ n) (hlt : n < 2 ^ 32) (hn : n ∉ tasks) :
    ∃ k, m ≤ k ∧ k < 2 ^ 32 ∧ k ∉ tasks ∧
      updateNextTid tasks (tasks.length + 1) m = some k := by
  have hex : ∃ k, m ≤ k ∧ k ∉ tasks := ⟨n, hmn, hn⟩
  have hfound := Nat.find_spec hex
  have hkn : Nat.find hex ≤ n := Nat.find_min' hex ⟨hmn, hn⟩
  have hused : ∀ k, m ≤ k → k < Nat.find hex → k ∈ tasks := by
    intro k hmk hk
    by_contra hfree
    exact Nat.find_min hex hk ⟨hmk, hfree⟩
  have hrounds := used_le_length hused
  exact ⟨Nat.find hex, hfound.1, by omega, hfound.2,
    updateNextTid_eq hfound.1 (by omega) (by omega) hfound.2 hused⟩

theorem updateNextTid_wraps (h0 : 0 ∉ tasks) : ∀ {fuel m : Nat}, m < 2 ^ 32 →
    (m = 0 ∨ ∀ k, m ≤ k → k < 2 ^ 32 → k ∈ tasks) → updateNextTid tasks fuel m = some n → n = 0
  | 0, _, _, _, h => by cases h
  | fuel + 1, m, hlt, hm, h => by
    rw [updateNextTid] at h
    rcases hm with rfl | hused
    · rw [if_neg h0] at h
      exact (Option.some.inj h).symm
    · rw [if_pos (hused m (Nat.le_refl m) hlt)] at h
      refine updateNextTid_wraps h0 (Nat.mod_lt _ (by decide)) ?_ h
      rcases Nat.eq_or_lt_of_le hlt with hlast | hnext
      · exact .inl (by rw [← hlast]; exact Nat.mod_self _)
      · rw [Nat.mod_eq_of_lt hnext]
        exact .inr fun k hk => hused k (by omega)

end Search

/-! ## What the steps leave alone -/

/-- No task is new and the counter stays. -/
def Keeps (s s' : State) : Prop := s'.tree.tasks ⊆ s.tree.tasks ∧ s'.nextTid = s.nextTid

section Keeps

variable {s s' : State} {x m t : Tid} {p : Pc} {o : Option Tid}

theorem Keeps.refl (s : State) : Keeps s s := ⟨List.Subset.refl _, rfl⟩

theorem lock_keeps (hl : lock s x m p = some s') : Keeps s s' := by
  obtain ⟨-, hl⟩ := of_assert hl
  cases hl
  exact .refl _

theorem lockIf_keeps (hl : lockIf s x o p = some s') : Keeps s s' := by
  cases o with
  | some m => exact lock_keeps hl
  | none =>
    cases hl
    exact .refl _

theorem unlock_keeps {i : Nat} {done : Option State} (hdone : done = some s' → Keeps s s')
    (hu : unlock s x i done = some s') : Keeps s s' := by
  unfold unlock at hu
  split at hu
  · exact hdone hu
  · obtain ⟨m, -, hu⟩ := of_bind hu
    cases hu
    exact .refl _

theorem goto_keeps (h : some (s.goto x p) = some s') : Keeps s s' := by
  cases h
  exact .refl _

theorem waitFor_keeps (hw : waitFor s x t = some s') : Keeps s s' := by
  unfold waitFor at hw
  split at hw
  · obtain ⟨q, -, hw⟩ := of_bind hw
    split at hw <;> exact goto_keeps hw
  · exact goto_keeps hw

theorem advance_keeps {i : Nat} (ha : advance s x i = some s') : Keeps s s' := by
  unfold advance at ha
  split at ha
  · cases ha
  · exact lock_keeps ha
  · exact lock_keeps ha
  · exact lockIf_keeps ha
  · obtain ⟨h, -, ha⟩ := of_bind ha
    cases ha
    exact .refl _
  · exact unlock_keeps goto_keeps ha
  · exact lock_keeps ha
  · exact goto_keeps ha
  · exact unlock_keeps goto_keeps ha
  · exact unlock_keeps waitFor_keeps ha
  · obtain ⟨-, ha⟩ := of_assert ha
    obtain ⟨-, ha⟩ := of_assert ha
    exact goto_keeps ha
  · exact lockIf_keeps ha
  · exact lockIf_keeps ha
  · exact lock_keeps ha
  · exact lockIf_keeps ha
  · exact lock_keeps ha
  · exact goto_keeps ha
  · obtain ⟨h, -, ha⟩ := of_bind ha
    cases ha
    exact .refl _
  · refine unlock_keeps (fun hdone => ?_) ha
    cases hdone
    exact ⟨List.erase_subset, rfl⟩

theorem step_keeps {a : Action} (ha : ∀ x, a ≠ .addTask x) (hs : step s a = some s') :
    Keeps s s' := by
  obtain ⟨-, hs⟩ := of_assert hs
  cases a with
  | addTask x => exact absurd rfl (ha x)
  | wait x t =>
    obtain ⟨-, hs⟩ := of_assert hs
    unfold wait at hs
    split at hs
    · exact goto_keeps hs
    · exact waitFor_keeps hs
  | terminateCurrentTask x =>
    obtain ⟨-, hs⟩ := of_assert hs
    obtain ⟨-, hs⟩ := of_assert hs
    cases hs
    exact .refl _
  | advance x i => exact advance_keeps hs

end Keeps

/-! ## Every new task -/

section AddTask

variable {s s' : State} {x : Tid}

theorem step_addTask (hs : step s (.addTask x) = some s') :
    ∃ n, updateNextTid s.tree.tasks (s.tree.tasks.length + 1) s.nextTid = some n ∧
      s'.tree = s.tree.insert n (if 1 < n then some x else none) ∧
      s'.nextTid = (n + 1) % 2 ^ 32 := by
  obtain ⟨-, hs⟩ := of_assert hs
  obtain ⟨-, hs⟩ := of_assert hs
  obtain ⟨n, hn, hs⟩ := of_bind hs
  cases hs
  exact ⟨n, hn, rfl, rfl⟩

theorem step_addTask_total (hx : x ∈ s.tree.tasks) (hlive : s.tree.zombie x = false)
    (hpc : s.pc x = .run) {n : Nat}
    (hn : updateNextTid s.tree.tasks (s.tree.tasks.length + 1) s.nextTid = some n) :
    ∃ s', step s (.addTask x) = some s' ∧
      s'.tree = s.tree.insert n (if 1 < n then some x else none) := by
  obtain ⟨s', hadd, htree⟩ : ∃ s', addTask s x = some s' ∧
      s'.tree = s.tree.insert n (if 1 < n then some x else none) := by
    rw [addTask, hn]
    exact ⟨_, rfl, rfl⟩
  refine ⟨s', ?_, htree⟩
  rw [step, assert_pos ⟨hx, hlive⟩, ← hadd]
  exact congrArg (fun o => Option.bind o _) (assert_pos hpc)

theorem added_insert {n : Nat} {p : Option Tid} (hn : n ∉ s.tree.tasks) (h0 : n ≠ 0)
    (hlt : n < 2 ^ 32) (htree : s'.tree = s.tree.insert n p) : Added s s' n where
  fresh := hn
  valid := ⟨h0, hlt⟩
  tasks := by rw [htree]; rfl
  others t ht := by
    have htn : t ≠ n := fun he => hn (he ▸ ht)
    rw [htree]
    exact ⟨update_of_ne htn _ _, update_of_ne htn _ _⟩

/-- The numbers that a run leaves behind. -/
structure Numbered (s : State) : Prop where
  pos : 0 ∉ s.tree.tasks
  nextTid : s.nextTid < 2 ^ 32

theorem Numbered.step (hi : Numbered s) {a : Action} (hok : AddsInTime s a)
    (hs : step s a = some s') : Numbered s' := by
  by_cases ha : ∃ x, a = .addTask x
  · obtain ⟨x, rfl⟩ := ha
    obtain ⟨n, hn, htree, hnext⟩ := step_addTask hs
    obtain ⟨hne, m, hle, hlt, hfree⟩ := hok
    obtain ⟨k, hk, -, -, hfound⟩ := updateNextTid_left hle hlt hfree
    obtain rfl := mem_unique hfound hn
    refine ⟨?_, hnext ▸ Nat.mod_lt _ (by decide)⟩
    rw [htree]
    rintro (_ | ⟨_, h0⟩)
    · exact hne (Nat.le_zero.mp hk)
    · exact hi.pos h0
  · have hkeeps := step_keeps (fun x hx => ha ⟨x, hx⟩) hs
    exact ⟨fun h0 => hi.pos (hkeeps.1 h0), hkeeps.2 ▸ hi.nextTid⟩

theorem numbered_boot : Numbered boot := ⟨by decide, by decide⟩

/-- **New numbers.** In a run in which every task was added while there was a number left,
`addTask` returns, and what it adds is a new task with a valid number, exactly while there is
still a number left. -/
theorem addTask_fresh (hs : Reach step AddsInTime boot s) (hx : x ∈ s.tree.tasks)
    (hlive : s.tree.zombie x = false) (hpc : s.pc x = .run) :
    0 ∉ s.tree.tasks ∧
      ((∃ s' n, step s (.addTask x) = some s' ∧ Added s s' n) ↔ TidLeft s) := by
  have hi : Numbered s := hs.invariant numbered_boot fun _ _ _ hi hok hs => hi.step hok hs
  refine ⟨hi.pos, ?_, ?_⟩
  · rintro ⟨s', n, hstep, hadded⟩
    obtain ⟨k, hk, htree, -⟩ := step_addTask hstep
    have hkn : k = n := by
      have htasks := hadded.tasks
      rw [htree] at htasks
      exact (List.cons.inj htasks).1
    subst hkn
    by_contra hleft
    refine hadded.valid.1 (updateNextTid_wraps hi.pos hi.nextTid ?_ hk)
    by_contra hnot
    push Not at hnot
    exact hleft ⟨hnot.1, hnot.2⟩
  · rintro ⟨hne, m, hle, hlt, hfree⟩
    obtain ⟨n, hmn, hn, hnew, hfound⟩ := updateNextTid_left hle hlt hfree
    obtain ⟨s', hstep, htree⟩ := step_addTask_total hx hlive hpc hfound
    exact ⟨s', n, hstep, added_insert hnew (by omega) hn htree⟩

/-- After the first step, in which task 2 is made: it exits, and task 1 waits for it. -/
def exitAndWait : List Action :=
  List.replicate 7 (.advance 1) ++ [.terminateCurrentTask 2, .wait 1 2]
    ++ List.replicate 10 (.advance 1)

theorem addTask_fresh_exitAndWait : ∃ s, Reach step AddsInTime boot s ∧
    (1 ∈ s.tree.tasks ∧ s.tree.zombie 1 = false ∧ s.pc 1 = .run) ∧ s.tree.tasks = [1] ∧
    s.nextTid = 3 ∧ 0 ∉ s.tree.tasks ∧ ∃ s' n, step s (.addTask 1) = some s' ∧ Added s s' n := by
  have hrun : (run step boot (.addTask 1 :: exitAndWait)).map (fun s =>
      (s.tree.tasks, s.tree.zombie 1, s.pc 1, s.nextTid)) = some ([1], false, .run, 3) := by decide
  obtain ⟨s, hs, hfacts⟩ := map_eq_some_iff.mp hrun
  simp only [Prod.mk.injEq] at hfacts
  obtain ⟨htasks, hlive, hpc, hnext⟩ := hfacts
  obtain ⟨s₁, hadd, hrest⟩ := bind_eq_some_iff.mp hs
  have hleft : TidLeft boot := ⟨by decide, 2, by decide, by decide, by decide⟩
  have hok : ∀ a ∈ exitAndWait, ∀ s, AddsInTime s a := by
    intro a ha s
    cases a with
    | addTask x => simp [exitAndWait] at ha
    | _ => trivial
  have hreach : Reach step AddsInTime boot s :=
    (Reach.start.tail (a := .addTask 1) hleft hadd).trans (Reach.of_run hok hrest)
  have hmem : 1 ∈ s.tree.tasks := by
    rw [htasks]
    exact mem_singleton.mpr rfl
  obtain ⟨hzero, hiff⟩ := addTask_fresh hreach hmem hlive hpc
  refine ⟨s, hreach, ⟨hmem, hlive, hpc⟩, htasks, hnext, hzero, hiff.mpr ⟨by omega, 3, by omega, by decide, ?_⟩⟩
  rw [htasks]
  decide

end AddTask

/-! ## A run that comes to 0

Task 1 starts a task, which exits, and waits for it, again and again. No more than two
tasks are there at a time, and all the others do nothing. -/

/-- Task 1 is at `p` and has the mutexes `l`. -/
def solo (T : Tree) (nextTid : Nat) (p : Pc) (l : List Tid) : State where
  tree := T
  nextTid := nextTid
  holder m := if m ∈ l then some 1 else none
  locks x := if x = 1 then l else []
  pc x := if x = 1 then p else .run

/-- The bound on the number of tasks. -/
def FewTasks (s : State) (_ : Action) : Prop := s.tree.tasks.length < 2 ^ 32 - 1

section Solo

variable {T : Tree} {k m : Nat} {n : Tid} {p q : Pc} {l : List Tid} {done : Option State}
  {s s' : State}

theorem solo_goto : (solo T k p l).goto 1 q = solo T k q l := by
  simp only [State.goto, solo, State.mk.injEq, true_and]
  funext x
  by_cases hx : x = 1 <;> simp [hx]

theorem solo_setTree {T' : Tree} :
    { solo T k p l with tree := T', pc := update (solo T k p l).pc 1 q } = solo T' k q l := by
  simp only [solo, State.mk.injEq, true_and]
  funext x
  by_cases hx : x = 1 <;> simp [hx]

theorem solo_lock (hm : m ∉ l) : lock (solo T k p l) 1 m q = some (solo T k q (l ++ [m])) := by
  have hfree : (solo T k p l).holder m = none := if_neg hm
  rw [lock, assert_pos hfree]
  refine congrArg some ?_
  simp only [solo, State.mk.injEq, true_and]
  refine ⟨?_, ?_, ?_⟩
  · funext u
    by_cases hu : u = m <;> simp [hu]
  · funext x
    by_cases hx : x = 1 <;> simp [hx]
  · funext x
    by_cases hx : x = 1 <;> simp [hx]

theorem solo_unlock (hm : m ∉ l) :
    unlock (solo T k p (m :: l)) 1 0 done = some (solo T k p l) := by
  refine congrArg some ?_
  simp only [solo, State.mk.injEq, true_and, and_true]
  refine ⟨?_, ?_⟩
  · funext u
    by_cases hu : u = m <;> simp [hu, hm]
  · funext x
    by_cases hx : x = 1 <;> simp [hx]

/-- One of the places where the mutexes are given back. -/
def AtUnlock : Pc → Prop
  | .addChild _ .unlock => True
  | .firstChild (.unlock _) => True
  | .remove _ .unlock => True
  | _ => False

theorem solo_advance_unlock (hp : AtUnlock p) (hm : m ∉ l) :
    advance (solo T k p (m :: l)) 1 0 = some (solo T k p l) := by
  unfold AtUnlock at hp
  -- there is a mutex to give back, so what comes after the last one does not matter
  have hunlock : ∀ p, unlock (solo T k p (m :: l)) 1 0 none = some (solo T k p l) :=
    fun _ => solo_unlock hm
  split at hp
  · exact hunlock _
  · rename_i t
    cases t <;> exact hunlock _
  · exact hunlock _
  · exact hp.elim

/-- The table holds task 1, which runs, and at most one other. -/
structure Pair (T : Tree) : Prop where
  one : 1 ∈ T.tasks
  live : T.zombie 1 = false
  few : T.tasks.length ≤ 2

theorem Pair.fewTasks (hT : Pair T) (a : Action) : FewTasks (solo T k p l) a :=
  Nat.lt_of_le_of_lt hT.few (by decide)

theorem Pair.next (hT : Pair T) (ha : advance (solo T k p l) 1 0 = some s)
    (hr : Reach step FewTasks s s') : Reach step FewTasks (solo T k p l) s' := by
  refine (Reach.start.tail (hT.fewTasks (.advance 1)) ?_).trans hr
  rw [step, assert_pos ⟨hT.one, hT.live⟩]
  exact ha

theorem Pair.addChild (hT : Pair T) (hn : n ≠ 1) (hfirst : T.first 1 = none)
    {h : Tid → HierarchyHolder} (hlink : link T.hh 1 n = some h) :
    Reach step FewTasks (solo T k (.addChild n .child) [])
      (solo { T with hh := h } k .run []) := by
  have hT' : Pair { T with hh := h } := { hT with }
  have hn' : 1 ∉ [n] := fun he => hn (mem_singleton.mp he).symm
  refine hT.next (solo_lock not_mem_nil) (hT.next (solo_lock hn') ?_)
  have hfirst' : advance (solo T k (.addChild n .first) [n, 1]) 1 0 =
      some (solo T k (.addChild n .link) [n, 1]) := by
    show lockIf _ 1 (T.first 1) _ = _
    rw [hfirst]
    exact congrArg some solo_goto
  have hlink' : advance (solo T k (.addChild n .link) [n, 1]) 1 0 =
      some (solo { T with hh := h } k (.addChild n .unlock) [n, 1]) := by
    show (link T.hh 1 n).bind _ = _
    rw [hlink]
    exact congrArg some solo_setTree
  refine hT.next hfirst' (hT.next hlink' ?_)
  refine hT'.next (solo_advance_unlock trivial fun he => hn (mem_singleton.mp he)) ?_
  refine hT'.next (solo_advance_unlock trivial not_mem_nil) ?_
  exact hT'.next (congrArg some solo_goto) .start

/-- `wait(-1)`, up to the wait for the exit of the child. -/
theorem Pair.waitAny (hT : Pair T) (hfirst : T.first 1 = some n) (hmem : n ∈ T.tasks)
    (hparent : T.parent n = some 1) :
    Reach step FewTasks (solo T k .run []) (solo T k (.awaiting n) []) := by
  have hwait : step (solo T k .run []) (.wait 1 ANY) =
      some (solo T k (.firstChild .lock) []) := by
    rw [step, assert_pos ⟨hT.one, hT.live⟩]
    exact congrArg some solo_goto
  have hread : advance (solo T k (.firstChild .read) [1]) 1 0 =
      some (solo T k (.firstChild (.unlock (some n))) [1]) := by
    rw [← hfirst]
    exact congrArg some solo_goto
  have hfound : advance (solo T k (.firstChild (.unlock (some n))) []) 1 0 =
      some (solo T k (.awaiting n) []) := by
    show waitFor (solo T k _ []) 1 n = _
    have hp : (solo T k (.firstChild (.unlock (some n))) []).tree.parent n = some 1 := hparent
    have hm : n ∈ (solo T k (.firstChild (.unlock (some n))) []).tree.tasks := hmem
    rw [waitFor, if_pos hm, hp]
    exact congrArg some solo_goto
  refine (Reach.start.tail (hT.fewTasks _) hwait).trans ?_
  refine hT.next (solo_lock not_mem_nil) (hT.next hread ?_)
  exact hT.next (solo_advance_unlock trivial not_mem_nil) (hT.next hfound .start)

/-- The exit of an only child without children, and its removal. -/
theorem Pair.remove (hT : Pair T) (hn : n ≠ 1) (hmem : n ∈ T.tasks) (hz : T.zombie n = true)
    (hparent : T.parent n = some 1) (hprev : T.prev n = none) (hnext : T.next n = none)
    (hfirst : T.first n = none) {h : Tid → HierarchyHolder} (hunlink : unlink T.hh n = some h) :
    Reach step FewTasks (solo T k (.awaiting n) [])
      (solo ⟨T.tasks.erase n, h, T.zombie⟩ k .run []) := by
  have hT' : Pair { T with hh := h } := { hT with }
  have hexit : advance (solo T k (.awaiting n) []) 1 0 = some (solo T k (.remove n .parent) []) := by
    show (assert (T.zombie n = true)).bind _ = _
    rw [assert_pos hz]
    show (assert (n ∈ T.tasks)).bind _ = _
    rw [assert_pos hmem]
    exact congrArg some solo_goto
  have hlockParent : advance (solo T k (.remove n .parent) []) 1 0 =
      some (solo T k (.remove n .prev) [1]) := by
    show lockIf _ 1 (T.parent n) _ = _
    rw [hparent]
    exact solo_lock not_mem_nil
  have hnoPrev : advance (solo T k (.remove n .prev) [1]) 1 0 =
      some (solo T k (.remove n .self) [1]) := by
    show lockIf _ 1 (T.prev n) _ = _
    rw [hprev]
    exact congrArg some solo_goto
  have hnoNext : advance (solo T k (.remove n .next) [1, n]) 1 0 =
      some (solo T k (.remove n (.child none)) [1, n]) := by
    show lockIf _ 1 (T.next n) (.remove n (.child (T.first n))) = _
    rw [hnext, hfirst]
    exact congrArg some solo_goto
  have hunlinked : advance (solo T k (.remove n .unlink) [1, n]) 1 0 =
      some (solo { T with hh := h } k (.remove n .unlock) [1, n]) := by
    show (unlink T.hh n).bind _ = _
    rw [hunlink]
    exact congrArg some solo_setTree
  refine hT.next hexit (hT.next hlockParent (hT.next hnoPrev ?_))
  refine hT.next (solo_lock fun he => hn (mem_singleton.mp he)) (hT.next hnoNext ?_)
  refine hT.next (congrArg some solo_goto) (hT.next hunlinked ?_)
  refine hT'.next (solo_advance_unlock trivial fun he => hn (mem_singleton.mp he).symm) ?_
  refine hT'.next (solo_advance_unlock trivial not_mem_nil) ?_
  exact hT'.next (congrArg some solo_setTree) .start

/-- Task 1 is the only one and has never had a child, or none any more. -/
structure Alone (T : Tree) : Prop where
  tasks : T.tasks = [1]
  holder : T.hh 1 = newHolder none
  live : T.zombie 1 = false

theorem Alone.starts (hT : Alone T) (hn : 1 < n) :
    step (solo T n .run []) (.addTask 1) =
      some (solo (T.insert n (some 1)) ((n + 1) % 2 ^ 32) (.addChild n .child) []) := by
  have hone : 1 ∈ T.tasks := by simp [hT.tasks]
  have hfree : n ∉ T.tasks := by simpa [hT.tasks] using Nat.ne_of_gt hn
  have hfound : updateNextTid T.tasks (T.tasks.length + 1) n = some n := if_neg hfree
  have hpc : update (update (solo T n .run []).pc n .run) 1 (.addChild n .child) =
      (solo T n (.addChild n .child) []).pc := by
    funext x
    by_cases hx : x = 1
    · simp [solo, hx]
    · by_cases hxn : x = n <;> simp [solo, update_apply]
  rw [step, assert_pos ⟨hone, hT.live⟩]
  show (updateNextTid T.tasks (T.tasks.length + 1) n).bind _ = _
  rw [hfound]
  refine congrArg some ?_
  simp only [if_pos hn, hpc]
  rfl

theorem Pair.exits (hT : Pair T) (hn : n ≠ 1) (hmem : n ∈ T.tasks) (hlive : T.zombie n = false) :
    Reach step FewTasks (solo T k .run [])
      (solo { T with zombie := update T.zombie n true } k .run []) := by
  have hexit : step (solo T k .run []) (.terminateCurrentTask n) =
      some (solo { T with zombie := update T.zombie n true } k .run []) := by
    rw [step, assert_pos ⟨hmem, hlive⟩]
    have hpc : (solo T k .run []).pc n = .run := if_neg hn
    show (assert ((solo T k .run []).pc n = .run)).bind _ = _
    rw [assert_pos hpc]
    rw [assert_pos hn]
    rfl
  exact Reach.start.tail (hT.fewTasks _) hexit

section Links

variable {h : Tid → HierarchyHolder}

theorem link_first (hn : n ≠ 1) (hone : h 1 = newHolder none) (hnew : h n = newHolder (some 1)) :
    ∃ h', link h 1 n = some h' ∧ h' 1 = ⟨none, some n, none, none⟩ ∧
      h' n = newHolder (some 1) := by
  simp [link, assert, setPrev, hone, hnew, hn, hn.symm, newHolder]

theorem unlink_last (hn : n ≠ 1) (hone : h 1 = ⟨none, some n, none, none⟩)
    (hnew : h n = newHolder (some 1)) : ∃ h', unlink h n = some h' ∧ h' 1 = newHolder none := by
  simp [unlink, assert, setPrev, setNext, hone, hnew, hn, newHolder]

end Links

theorem Alone.cycle (hT : Alone T) (hn : 1 < n) : ∃ T', Alone T' ∧
    Reach step FewTasks (solo T n .run []) (solo T' ((n + 1) % 2 ^ 32) .run []) := by
  have hne : n ≠ 1 := Nat.ne_of_gt hn
  -- started
  let T1 := T.insert n (some 1)
  have htasks : T1.tasks = [n, 1] := congrArg (n :: ·) hT.tasks
  have hone : T1.hh 1 = newHolder none := (update_of_ne hne.symm _ _).trans hT.holder
  have hlive : T1.zombie 1 = false := (update_of_ne hne.symm _ _).trans hT.live
  have hpair : Pair T1 := ⟨by simp [htasks], hlive, by simp [htasks]⟩
  have hmem : n ∈ T1.tasks := by simp [htasks]
  -- the only child
  obtain ⟨h, hlink, hone', hnew'⟩ := link_first hne hone (update_self n _ _)
  have hpair2 : Pair { T1 with hh := h } := ⟨hpair.one, hlive, hpair.few⟩
  -- exited
  let T3 : Tree := ⟨T1.tasks, h, update T1.zombie n true⟩
  have hpair3 : Pair T3 := ⟨hpair.one, (update_of_ne hne.symm _ _).trans hlive, hpair.few⟩
  have hfield : ∀ {α : Type} (f : HierarchyHolder → α), f (T3.hh n) = f (newHolder (some 1)) :=
    fun f => congrArg f hnew'
  obtain ⟨h', hunlink, hone''⟩ := unlink_last hne hone' hnew'
  refine ⟨⟨T3.tasks.erase n, h', T3.zombie⟩, ⟨?_, hone'', hpair3.live⟩, ?_⟩
  · rw [htasks, List.erase_cons_head]
  have hfew : FewTasks (solo T n .run []) (.addTask 1) := by
    show T.tasks.length < _
    rw [hT.tasks]
    decide
  refine (Reach.start.tail hfew (hT.starts hn)).trans ?_
  refine (hpair.addChild hne (congrArg _ hone) hlink).trans ?_
  refine (hpair2.exits hne hmem (update_self _ _ _)).trans ?_
  refine (hpair3.waitAny (congrArg _ hone') hmem (hfield _)).trans ?_
  exact hpair3.remove hne hmem (update_self _ _ _) (hfield _) (hfield _) (hfield _) (hfield _)
    hunlink

theorem boot_solo : boot = solo boot.tree 2 .run [] := by
  simp only [boot, solo, ite_self, not_mem_nil, if_false]

theorem reach_nextTid (n : Nat) (hn : n + 2 < 2 ^ 32) :
    ∃ T, Alone T ∧ Reach step FewTasks boot (solo T (n + 2) .run []) := by
  induction n with
  | zero => exact ⟨boot.tree, ⟨rfl, rfl, rfl⟩, boot_solo ▸ .start⟩
  | succ n ih =>
    obtain ⟨T, hT, hreach⟩ := ih (by omega)
    obtain ⟨T', hT', hcycle⟩ := hT.cycle (Nat.le_add_left 2 n)
    rw [Nat.mod_eq_of_lt hn] at hcycle
    exact ⟨T', hT', hreach.trans hcycle⟩

end Solo

/-- After four billion tasks, one at a time, the next one has the number 0. -/
theorem addTask_zero : ∃ s s', Reach step FewTasks boot s ∧ s.tree.tasks = [1] ∧
    step s (.addTask 1) = some s' ∧ s'.tree.tasks = [0, 1] ∧ ¬ ∃ n, Added s s' n := by
  obtain ⟨T, hT, hreach⟩ := reach_nextTid (2 ^ 32 - 3) (by decide)
  obtain ⟨T', hT', hcycle⟩ := hT.cycle (n := 2 ^ 32 - 3 + 2) (by decide)
  have hzero : (2 ^ 32 - 3 + 2 + 1) % 2 ^ 32 = 0 := by decide
  rw [hzero] at hcycle
  have hfound : updateNextTid T'.tasks (T'.tasks.length + 1) 0 = some 0 := by
    rw [hT'.tasks]
    rfl
  obtain ⟨s', hstep, htree⟩ := step_addTask_total (s := solo T' 0 .run []) (x := 1)
    (by show 1 ∈ T'.tasks; simp [hT'.tasks]) hT'.live rfl hfound
  have htasks : s'.tree.tasks = [0, 1] := by
    rw [htree]
    exact congrArg (0 :: ·) hT'.tasks
  refine ⟨_, s', hreach.trans hcycle, hT'.tasks, hstep, htasks, ?_⟩
  rintro ⟨n, hadded⟩
  have hcons := htasks.symm.trans hadded.tasks
  exact hadded.valid.1 (List.cons.inj hcons).1.symm

end Flix.Tasks

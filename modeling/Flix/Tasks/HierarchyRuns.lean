import Flix.Tasks.Hierarchy

/-!
# The hierarchy over whole runs

The links of a task's children are changed by that task alone: it adds children to
itself, and only a parent waits for a child. So a task in the middle of an operation
finds its children as it has left them, and each mutex it takes is one of its own, of
one of its children, or of a child of a child that has exited. `Stage` says for every
place in the code which mutexes a task has there.

Two kinds of tasks are in no list: one that is about to be added, and one that has been
unlinked and still gives back its mutexes. These are `Loose`.
-/

namespace Flix.Tasks

open Function Runs Siblings

/-! ## The invariant -/

/-- A task at `p` has `t` in hand, outside of all lists. -/
def LooseBy (t : Tid) : Pc → Prop
  | .addChild c place => t = c ∧ place ≠ .unlock
  | .remove c place => t = c ∧ place = .unlock
  | _ => False

def Loose (s : State) (t : Tid) : Prop := ∃ x, LooseBy t (s.pc x)

/-- Parents are above their children. -/
def Ranked (T : Tree) (rank : Tid → Nat) : Prop :=
  ∀ t ∈ T.tasks, ∀ p, T.parent t = some p → rank p < rank t

/-- The tree is a tree, with `kids p` the children of `p` in the order of their list. -/
structure Forest (T : Tree) (loose : Tid → Prop) (kids : Tid → List Tid) : Prop where
  nodup : T.tasks.Nodup
  list : ∀ p ∈ T.tasks, Represents T.next T.prev (T.first p) (kids p)
  mem : ∀ p ∈ T.tasks, ∀ t, t ∈ kids p ↔ t ∈ T.tasks ∧ T.parent t = some p ∧ ¬ loose t
  parent : ∀ t ∈ T.tasks, ∀ p, T.parent t = some p → p ∈ T.tasks
  acyclic : ∃ rank, Ranked T rank

theorem Forest.congr {T : Tree} {loose loose' : Tid → Prop} {kids : Tid → List Tid}
    (h : Forest T loose kids) (hl : ∀ t, loose t ↔ loose' t) : Forest T loose' kids :=
  { h with mem := fun p hp t => by rw [h.mem p hp t, hl] }

/-- Whose mutexes a task takes. -/
def Family (T : Tree) (x m : Tid) : Prop :=
  m = x ∨ T.parent m = some x ∨ ∃ z, T.zombie z = true ∧ T.parent z = some x ∧ T.parent m = some z

/-- What is known of `x` at a place, with the mutexes it has there. -/
def Stage (T : Tree) (kids : Tid → List Tid) (x : Tid) : Pc → List Tid → Prop
  | .run, l => l = []
  | .addChild c place, l => c ∈ T.tasks ∧ T.parent c = some x ∧
      match place with
      | .child => l = []
      | .parent => l = [c]
      | .first => l = [c, x]
      | .link => True
      | .unlock => True
  | .firstChild .lock, l => l = []
  | .firstChild _, _ => True
  | .awaiting t, l => l = [] ∧ t ∈ T.tasks ∧ T.parent t = some x
  | .remove t place, l => t ∈ T.tasks ∧ T.parent t = some x ∧ T.zombie t = true ∧
      match place with
      | .parent => l = []
      | .prev => l = [x]
      | .self => l = x :: (T.prev t).toList
      | .next => l = x :: ((T.prev t).toList ++ [t])
      | .child cur => ∃ front back, kids t = front ++ back ∧ cur = back.head? ∧
          l = x :: ((T.prev t).toList ++ t :: (T.next t).toList ++ front)
      | .unlink => True
      | .unlock => T.first t = none

structure Inv (s : State) (kids : Tid → List Tid) : Prop where
  forest : Forest s.tree (Loose s) kids
  holder : ∀ m x, s.holder m = some x ↔ m ∈ s.locks x
  locksNodup : ∀ x, (s.locks x).Nodup
  family : ∀ x, ∀ m ∈ s.locks x, m ∈ s.tree.tasks ∧ Family s.tree x m
  busy : ∀ x, s.pc x ≠ .run → x ∈ s.tree.tasks ∧ s.tree.zombie x = false
  stage : ∀ x, Stage s.tree kids x (s.pc x) (s.locks x)

section Facts

variable {s₀ s s' : State} {kids kids' : Tid → List Tid} {x y m t : Tid} {T T' : Tree}

variable {loose : Tid → Prop} {p : Pc} {l : List Tid} {h : Tid → HierarchyHolder}

theorem Forest.ne_of_parent (hf : Forest T loose kids) (ht : t ∈ T.tasks)
    {p : Tid} (hp : T.parent t = some p) : t ≠ p := by
  obtain ⟨rank, hrank⟩ := hf.acyclic
  rintro rfl
  exact Nat.lt_irrefl _ (hrank t ht t hp)

theorem Inv.stageAt (hi : Inv s kids) (hpc : s.pc x = p) : Stage s.tree kids x p (s.locks x) :=
  hpc ▸ hi.stage x

theorem Inv.looseBy_parent (hi : Inv s kids) (hl : LooseBy t (s.pc x)) :
    t ∈ s.tree.tasks ∧ s.tree.parent t = some x := by
  cases hpc : s.pc x with
  | addChild c place | remove c place =>
    obtain ⟨hc, hcx, -⟩ := hi.stageAt hpc
    rw [hpc] at hl
    exact hl.1 ▸ ⟨hc, hcx⟩
  | run | firstChild _ | awaiting _ =>
    rw [hpc] at hl
    exact hl.elim

/-- Who has a task in hand, when one task has gone from a place without it. -/
theorem loose_update_iff (hx : ¬ LooseBy t (s.pc x)) :
    (∃ y, LooseBy t (update s.pc x p y)) ↔ Loose s t ∨ LooseBy t p := by
  have hold : Loose s t ↔ ∃ y, y ≠ x ∧ LooseBy t (s.pc y) :=
    exists_congr fun y => ⟨fun h => ⟨fun he => hx (he ▸ h), h⟩, And.right⟩
  rw [exists_update_iff s.pc fun _ q => LooseBy t q, hold, or_comm]

theorem Inv.loose_iff (hi : Inv s kids) {p : Tid} (hp : s.tree.parent t = some p) :
    Loose s t ↔ LooseBy t (s.pc p) := by
  refine ⟨fun ⟨x, hx⟩ => ?_, fun h => ⟨p, h⟩⟩
  obtain rfl := Option.some.inj (hp.symm.trans (hi.looseBy_parent hx).2)
  exact hx

theorem Inv.locks_of_zombie (hi : Inv s kids) (hz : s.tree.zombie x = true) : s.locks x = [] := by
  have hrun : s.pc x = .run := by
    by_contra hne
    have hlive := (hi.busy x hne).2
    rw [hz] at hlive
    cases hlive
  exact hi.stageAt hrun

theorem Inv.locks_of_not_mem (hi : Inv s kids) (hx : x ∉ s.tree.tasks) :
    s.pc x = .run ∧ s.locks x = [] := by
  have hrun : s.pc x = .run := by
    by_contra hne
    exact hx (hi.busy x hne).1
  exact ⟨hrun, hi.stageAt hrun⟩

theorem Inv.mem_kids (hi : Inv s kids) (ht : t ∈ s.tree.tasks) {p : Tid}
    (hp : s.tree.parent t = some p) (hl : ¬ LooseBy t (s.pc p)) : t ∈ kids p :=
  (hi.forest.mem p (hi.forest.parent t ht p hp) t).mpr ⟨ht, hp, (hi.loose_iff hp).not.mpr hl⟩

theorem Inv.of_mem_kids (hi : Inv s kids) {p : Tid} (hp : p ∈ s.tree.tasks) (ht : t ∈ kids p) :
    t ∈ s.tree.tasks ∧ s.tree.parent t = some p ∧ t ≠ p :=
  let ⟨ht, hpar, _⟩ := (hi.forest.mem p hp t).mp ht
  ⟨ht, hpar, hi.forest.ne_of_parent ht hpar⟩

/-- Below `x`: a child, or a child of a child that has exited. -/
def Below (T : Tree) (x m : Tid) : Prop :=
  T.parent m = some x ∨ ∃ z, T.zombie z = true ∧ T.parent z = some x ∧ T.parent m = some z

theorem Forest.rank_of_below (hf : Forest T loose kids) {rank : Tid → Nat}
    (hrank : Ranked T rank) (hm : m ∈ T.tasks) (hb : Below T x m) : rank x < rank m := by
  rcases hb with hp | ⟨z, -, hzx, hmz⟩
  · exact hrank m hm x hp
  · exact Nat.lt_trans (hrank z (hf.parent m hm z hmz) x hzx) (hrank m hm z hmz)

theorem Forest.ne_of_below (hf : Forest T loose kids) (hm : m ∈ T.tasks)
    (hb : Below T x m) : m ≠ x := by
  obtain ⟨rank, hrank⟩ := hf.acyclic
  rintro rfl
  exact Nat.lt_irrefl _ (hf.rank_of_below hrank hm hb)

/-- What a task is about to lock: its own mutex, which it does not have, or one below it, which it
does not have either; and then it has its own mutex, or none. -/
structure Wanted (s : State) (x m : Tid) : Prop where
  mem : m ∈ s.tree.tasks
  new : m ∉ s.locks x
  place : m = x ∨ Below s.tree x m ∧ (s.locks x = [] ∨ x ∈ s.locks x)

theorem Wanted.family (h : Wanted s x m) : Family s.tree x m := h.place.imp id And.left

theorem Wanted.own (hx : x ∈ s.tree.tasks) (hl : s.locks x = l) (hnew : x ∉ l) : Wanted s x x :=
  ⟨hx, hl ▸ hnew, .inl rfl⟩

theorem Wanted.below (hm : m ∈ s.tree.tasks) (hb : Below s.tree x m) (hl : s.locks x = x :: l)
    (hnew : m ∉ x :: l) : Wanted s x m :=
  ⟨hm, hl ▸ hnew, .inr ⟨hb, .inr (hl ▸ mem_cons_self)⟩⟩

theorem ne_run_of_wants (hw : wants s x = some m) : s.pc x ≠ .run := by
  intro hrun
  rw [wants, hrun] at hw
  cases hw

/-- The neighbours of a child that is about to be removed. -/
theorem Inv.neighbour (hi : Inv s kids) {place : RemovePlace} (hpc : s.pc x = .remove t place)
    (hplace : place ≠ .unlock) :
    t ∈ kids x ∧ (∀ u, s.tree.prev t = some u → u ∈ kids x ∧ u ≠ t) ∧
      (∀ u, s.tree.next t = some u → u ∈ kids x ∧ u ≠ t ∧ s.tree.prev t ≠ some u) := by
  obtain ⟨htask, hpar, -⟩ := hi.stageAt hpc
  have hx := hi.forest.parent t htask x hpar
  have hkid : t ∈ kids x := by
    refine hi.mem_kids htask hpar ?_
    rw [hpc]
    exact fun h => hplace h.2
  have hlist := hi.forest.list x hx
  refine ⟨hkid, fun u hu => hlist.prev_mem hkid hu, fun u hu => ?_⟩
  obtain ⟨hmem, hne⟩ := hlist.next_mem hkid hu
  exact ⟨hmem, hne, fun hv => hlist.next_ne_prev hkid hu hv rfl⟩

theorem Inv.wanted (hi : Inv s kids) (hw : wants s x = some m) : Wanted s x m := by
  have hx := (hi.busy x (ne_run_of_wants hw)).1
  -- a child in the list is in `_tasks`, below `x` and not `x`
  have hkid : ∀ {u}, u ∈ kids x → u ∈ s.tree.tasks ∧ s.tree.parent u = some x ∧ u ≠ x :=
    fun hu => hi.of_mem_kids hx hu
  unfold wants at hw
  split at hw
  · rename_i c hp
    obtain rfl := Option.some.inj hw
    obtain ⟨hc, hpar, hl⟩ := hi.stageAt hp
    exact ⟨hc, by rw [hl]; exact not_mem_nil, .inr ⟨.inl hpar, .inl hl⟩⟩
  · rename_i c hp
    obtain rfl := Option.some.inj hw
    obtain ⟨hc, hpar, hl⟩ := hi.stageAt hp
    exact .own hx hl (by simp [(hi.forest.ne_of_parent hc hpar).symm])
  · rename_i c hp
    obtain ⟨hc, hpar, hl⟩ := hi.stageAt hp
    have hm := (hi.forest.list x hx).first_mem hw
    obtain ⟨htask, hparent, hne⟩ := hkid hm
    have hmc : m ≠ c := by
      rintro rfl
      have hloose : Loose s m := ⟨x, by rw [hp]; exact ⟨rfl, AddPlace.noConfusion⟩⟩
      exact ((hi.forest.mem x hx m).mp hm).2.2 hloose
    exact ⟨htask, by rw [hl]; simp [hmc, hne], .inr ⟨.inl hparent, .inr (by rw [hl]; simp)⟩⟩
  · rename_i hp
    obtain rfl := Option.some.inj hw
    exact .own hx (hi.stageAt hp) not_mem_nil
  · rename_i t hp
    obtain ⟨-, hpar, -, hl⟩ := hi.stageAt hp
    obtain rfl := mem_unique hw hpar
    exact .own hx hl not_mem_nil
  · rename_i t hp
    obtain ⟨-, -, -, hl⟩ := hi.stageAt hp
    obtain ⟨htask, hparent, hne⟩ := hkid ((hi.neighbour hp (by simp)).2.1 m hw).1
    exact .below htask (.inl hparent) hl (by simp [hne])
  · rename_i t hp
    obtain rfl := Option.some.inj hw
    obtain ⟨htask, hpar, -, hl⟩ := hi.stageAt hp
    have hne := hi.forest.ne_of_parent htask hpar
    have hprev : s.tree.prev t ≠ some t := fun hv => ((hi.neighbour hp (by simp)).2.1 t hv).2 rfl
    exact .below htask (.inl hpar) hl (by simp [hne, hprev])
  · rename_i t hp
    obtain ⟨-, -, -, hl⟩ := hi.stageAt hp
    obtain ⟨hm, hmt, hprev⟩ := (hi.neighbour hp (by simp)).2.2 m hw
    obtain ⟨htask, hparent, hne⟩ := hkid hm
    exact .below htask (.inl hparent) hl (by simp [hne, hprev, hmt])
  · rename_i t cur hp
    obtain ⟨htask, hpar, hz, front, back, hkids, rfl, hl⟩ := hi.stageAt hp
    have hmem : m ∈ kids t := by
      rw [hkids]
      exact mem_append_right _ (List.mem_of_head? hw)
    obtain ⟨hm, hmt, hne⟩ := hi.of_mem_kids htask hmem
    have hbelow : Below s.tree x m := .inr ⟨t, hz, hpar, hmt⟩
    -- a child of the child is none of its siblings
    have hsib : ∀ {u}, u ∈ kids x → m ≠ u := by
      rintro u hu rfl
      have htx := (hmt.symm.trans (hkid hu).2.1)
      exact hi.forest.ne_of_parent htask hpar (Option.some.inj htx)
    have hnb := hi.neighbour hp (by simp)
    have hfront : m ∉ front := by
      have hnodup := (hi.forest.list t htask).nodup
      rw [hkids] at hnodup
      exact fun hf => (List.nodup_append.mp hnodup).2.2 m hf m (List.mem_of_head? hw) rfl
    have hprev : s.tree.prev t ≠ some m := fun hv => hsib (hnb.2.1 m hv).1 rfl
    have hnext : s.tree.next t ≠ some m := fun hv => hsib (hnb.2.2 m hv).1 rfl
    exact .below hm hbelow hl
      (by simp [hi.forest.ne_of_below hm hbelow, hprev, hnext, hne, hfront])
  · cases hw

/-! ## Steps that only lock and unlock -/

theorem Inv.move (hi : Inv s kids) {f : Tid → Option Tid}
    (hloose : ∀ t, LooseBy t p ↔ LooseBy t (s.pc x))
    (hholder : ∀ m y, f m = some y ↔ m ∈ update s.locks x l y) (hnodup : l.Nodup)
    (hfamily : ∀ m ∈ l, m ∈ s.tree.tasks ∧ Family s.tree x m)
    (hbusy : p ≠ .run → x ∈ s.tree.tasks ∧ s.tree.zombie x = false)
    (hstage : Stage s.tree kids x p l) :
    Inv { s with holder := f, locks := update s.locks x l, pc := update s.pc x p } kids := by
  have hsame : ∀ t, Loose { s with
      holder := f, locks := update s.locks x l, pc := update s.pc x p } t ↔ Loose s t :=
    fun t => exists_congr ((forall_update_iff s.pc fun y q => LooseBy t q ↔ LooseBy t (s.pc y)).mpr
      ⟨hloose t, fun _ _ => Iff.rfl⟩)
  refine ⟨hi.forest.congr fun t => (hsame t).symm, hholder,
    (forall_update_iff s.locks fun _ l => l.Nodup).mpr ⟨hnodup, fun y _ => hi.locksNodup y⟩,
    (forall_update_iff s.locks fun y l => ∀ m ∈ l, m ∈ s.tree.tasks ∧ Family s.tree y m).mpr
      ⟨hfamily, fun y _ => hi.family y⟩,
    (forall_update_iff s.pc fun y p => p ≠ .run → y ∈ s.tree.tasks ∧ s.tree.zombie y = false).mpr
      ⟨hbusy, fun y _ => hi.busy y⟩, fun y => ?_⟩
  show Stage s.tree kids y (update s.pc x p y) (update s.locks x l y)
  by_cases hy : y = x
  · rw [hy, update_self, update_self]
    exact hstage
  · rw [update_of_ne hy, update_of_ne hy]
    exact hi.stage y

theorem Inv.goto (hi : Inv s kids) (hloose : ∀ t, LooseBy t p ↔ LooseBy t (s.pc x))
    (hbusy : p ≠ .run → x ∈ s.tree.tasks ∧ s.tree.zombie x = false)
    (hstage : Stage s.tree kids x p (s.locks x)) : Inv (s.goto x p) kids := by
  have hsame : update s.locks x (s.locks x) = s.locks := update_eq_self x s.locks
  have hmove := hi.move hloose (by rw [hsame]; exact hi.holder)
    (hi.locksNodup x) (hi.family x) hbusy hstage
  rwa [hsame] at hmove

theorem Inv.lock (hi : Inv s kids) (hw : wants s x = some m)
    (hloose : ∀ t, LooseBy t p ↔ LooseBy t (s.pc x))
    (hstage : Stage s.tree kids x p (s.locks x ++ [m])) (hl : lock s x m p = some s') :
    Inv s' kids := by
  obtain ⟨hfree, hl⟩ := of_assert hl
  cases hl
  have hwant := hi.wanted hw
  refine hi.move hloose (fun n y => ?_) ?_ ?_ (fun _ => hi.busy x (ne_run_of_wants hw)) hstage
  · by_cases hn : n = m
    · subst hn
      by_cases hy : y = x
      · subst hy
        simp
      · rw [update_of_ne hy, ← hi.holder, hfree]
        simp [Ne.symm hy]
    · rw [update_of_ne hn, hi.holder]
      by_cases hy : y = x
      · subst hy
        simp [hn]
      · rw [update_of_ne hy]
  · exact List.nodup_append.mpr ⟨hi.locksNodup x, List.nodup_singleton m, fun a ha b hb hab =>
      hwant.new (mem_singleton.mp hb ▸ hab ▸ ha)⟩
  · intro n hn
    rcases mem_append.mp hn with hn | hn
    · exact hi.family x n hn
    · obtain rfl := mem_singleton.mp hn
      exact ⟨hwant.mem, hwant.family⟩

theorem Inv.unlock (hi : Inv s kids) (hm : m ∈ s.locks x)
    (hstage : Stage s.tree kids x (s.pc x) ((s.locks x).erase m)) :
    Inv { s with
      holder := update s.holder m none, locks := update s.locks x ((s.locks x).erase m) } kids := by
  have hsame : update s.pc x (s.pc x) = s.pc := update_eq_self x s.pc
  have hnodup := hi.locksNodup x
  have hmove := hi.move (fun _ => Iff.rfl) (f := update s.holder m none) (fun n y => ?_)
    (hnodup.erase m) (fun n hn => hi.family x n (List.mem_of_mem_erase hn)) (hi.busy x) hstage
  · rwa [hsame] at hmove
  · by_cases hy : y = x
    · subst hy
      rw [update_self, hnodup.mem_erase_iff, ← hi.holder]
      by_cases hn : n = m <;> simp [hn]
    · rw [update_of_ne hy]
      by_cases hn : n = m
      · subst hn
        rw [← hi.holder, (hi.holder n x).mpr hm]
        simp [Ne.symm hy]
      · rw [update_of_ne hn, hi.holder]

/-! ## Steps that change the tree -/

/-- What `x` relies on is as it was. -/
structure Kept (T T' : Tree) (kids kids' : Tid → List Tid) (x : Tid) : Prop where
  tasks : ∀ t ∈ T.tasks, T.parent t = some x → t ∈ T'.tasks
  siblings : ∀ t ∈ T.tasks, T.parent t = some x → T'.next t = T.next t ∧ T'.prev t = T.prev t
  kids : ∀ t ∈ T.tasks, T.parent t = some x → T.zombie t = true →
    kids' t = kids t ∧ T'.first t = T.first t

theorem ne_of_zombie (hz : T.zombie t = true) (hx : T.zombie x = false) : t ≠ x := by
  rintro rfl
  rw [hz] at hx
  cases hx

theorem Stage.kept (h : Stage T kids x p l) (hpar : ∀ t ∈ T.tasks, T'.parent t = T.parent t)
    (hzom : ∀ t ∈ T.tasks, T.zombie t = true → T'.zombie t = true)
    (hk : p ≠ .run → Kept T T' kids kids' x) : Stage T' kids' x p l := by
  cases p with
  | run => exact h
  | addChild c place =>
    obtain ⟨hc, hp, hrest⟩ := h
    exact ⟨(hk Pc.noConfusion).tasks c hc hp, (hpar c hc).trans hp, hrest⟩
  | firstChild place => cases place <;> exact h
  | awaiting t =>
    obtain ⟨hl, ht, hp⟩ := h
    exact ⟨hl, (hk Pc.noConfusion).tasks t ht hp, (hpar t ht).trans hp⟩
  | remove t place =>
    have hk := hk Pc.noConfusion
    obtain ⟨ht, hp, hz, hrest⟩ := h
    obtain ⟨hnext, hprev⟩ := hk.siblings t ht hp
    obtain ⟨hkids, hfirst⟩ := hk.kids t ht hp hz
    refine ⟨hk.tasks t ht hp, (hpar t ht).trans hp, hzom t ht hz, ?_⟩
    cases place <;> simp only [hnext, hprev, hkids, hfirst] at hrest ⊢ <;> exact hrest

/-- A step of `x` that changes the tree and takes or gives back no mutex. -/
theorem Inv.change (hi : Inv s kids)
    (hforest : Forest T' (fun t => ∃ y, LooseBy t (update s.pc x p y)) kids')
    (hlocks : ∀ y, ∀ m ∈ s.locks y, m ∈ T'.tasks)
    (hpar : ∀ t ∈ s.tree.tasks, T'.parent t = s.tree.parent t)
    (hzom : ∀ t ∈ s.tree.tasks, s.tree.zombie t = true → T'.zombie t = true)
    (hown : p ≠ .run → x ∈ T'.tasks ∧ T'.zombie x = false)
    (hbusy : ∀ y, y ≠ x → s.pc y ≠ .run → y ∈ T'.tasks ∧ T'.zombie y = false)
    (hkept : ∀ y, y ≠ x → s.pc y ≠ .run → Kept s.tree T' kids kids' y)
    (hstage : Stage T' kids' x p (s.locks x)) :
    Inv { s with tree := T', pc := update s.pc x p } kids' := by
  refine ⟨hforest, hi.holder, hi.locksNodup, fun y m hm => ⟨hlocks y m hm, ?_⟩,
    (forall_update_iff s.pc fun y p => p ≠ .run → y ∈ T'.tasks ∧ T'.zombie y = false).mpr
      ⟨hown, hbusy⟩, fun y => ?_⟩
  · obtain ⟨htask, hfam⟩ := hi.family y m hm
    rcases hfam with rfl | hp | ⟨z, hz, hzy, hmz⟩
    · exact .inl rfl
    · exact .inr (.inl ((hpar m htask).trans hp))
    · have hztask := hi.forest.parent m htask z hmz
      exact .inr (.inr ⟨z, hzom z hztask hz, (hpar z hztask).trans hzy, (hpar m htask).trans hmz⟩)
  · by_cases hy : y = x
    · subst hy
      show Stage T' kids' y (update s.pc y p y) (s.locks y)
      rw [update_self]
      exact hstage
    · show Stage T' kids' y (update s.pc x p y) (s.locks y)
      rw [update_of_ne hy]
      exact (hi.stage y).kept hpar hzom (hkept y hy)

/-- Whether a child of `q` is loose is seen at `q`. -/
theorem Inv.loose_change (hi : Inv s kids) {q : Tid}
    (hp : LooseBy t p → s.tree.parent t = some x) (hq : s.tree.parent t = some q) :
    (∃ y, LooseBy t (update s.pc x p y)) ↔ LooseBy t (update s.pc x p q) := by
  refine ⟨fun ⟨y, hy⟩ => ?_, fun h => ⟨q, h⟩⟩
  have hyq : y = q := by
    by_cases hyx : y = x
    · subst hyx
      rw [update_self] at hy
      exact Option.some.inj ((hp hy).symm.trans hq)
    · rw [update_of_ne hyx] at hy
      exact Option.some.inj ((hi.looseBy_parent hy).2.symm.trans hq)
  exact hyq ▸ hy

/-- `x` changes the list of its children, and no other. -/
theorem Inv.relink (hi : Inv s kids)
    (hpc : s.pc x ≠ .run) (hparent : ∀ t, (h t).parent = s.tree.parent t)
    (hfirst : ∀ q, q ≠ x → (h q).firstChild = s.tree.first q)
    (hother : ∀ {t q}, t ∈ s.tree.tasks → s.tree.parent t = some q → q ≠ x →
      (h t).nextSibling = s.tree.next t ∧ (h t).prevSibling = s.tree.prev t)
    (hlist : Represents (fun t => (h t).nextSibling) (fun t => (h t).prevSibling)
      (h x).firstChild l) (hchild : ∀ t ∈ l, t ∈ s.tree.tasks ∧ s.tree.parent t = some x)
    (hmem : ∀ t ∈ s.tree.tasks, s.tree.parent t = some x → (t ∈ l ↔ ¬ LooseBy t p))
    (hloose : ∀ t, LooseBy t p → s.tree.parent t = some x)
    (hstage : Stage { s.tree with hh := h } (update kids x l) x p (s.locks x)) :
    Inv { s with tree := { s.tree with hh := h }, pc := update s.pc x p } (update kids x l) := by
  have hf := hi.forest
  obtain ⟨hx, hlive⟩ := hi.busy x hpc
  refine hi.change ⟨hf.nodup, fun q hq => ?_, fun q hq t => ?_, fun t ht q hq => ?_, ?_⟩
    (fun y m hm => (hi.family y m hm).1) (fun t _ => hparent t) (fun t _ => id)
    (fun _ => ⟨hx, hlive⟩) (fun y _ => hi.busy y)
    (fun y hy _ => ⟨fun t ht _ => ht, fun t ht hty => hother ht hty hy, fun t ht hty hz => ?_⟩)
    hstage
  · show Represents _ _ (h q).firstChild _
    by_cases hqx : q = x
    · subst hqx
      rwa [update_self]
    · rw [update_of_ne hqx, hfirst q hqx]
      refine (hf.list q hq).congr (fun u hu => ?_) (fun u hu => ?_)
      all_goals obtain ⟨hut, huq, -⟩ := hi.of_mem_kids hq hu
      · exact (hother hut huq hqx).1
      · exact (hother hut huq hqx).2
  · show t ∈ update kids x l q ↔
      t ∈ s.tree.tasks ∧ (h t).parent = some q ∧ ¬ ∃ y, LooseBy t (update s.pc x p y)
    rw [hparent]
    by_cases hqx : q = x
    · subst hqx
      rw [update_self]
      constructor
      · intro ht
        obtain ⟨htask, htq⟩ := hchild t ht
        rw [hi.loose_change (hloose t) htq, update_self]
        exact ⟨htask, htq, (hmem t htask htq).mp ht⟩
      · intro ⟨htask, htq, hnot⟩
        rw [hi.loose_change (hloose t) htq, update_self] at hnot
        exact (hmem t htask htq).mpr hnot
    · rw [update_of_ne hqx, hf.mem q hq t]
      refine and_congr_right fun ht => and_congr_right fun htq => not_congr ?_
      rw [hi.loose_change (hloose t) htq, update_of_ne hqx]
      exact hi.loose_iff htq
  · exact hf.parent t ht q ((hparent t).symm.trans hq)
  · obtain ⟨rank, hrank⟩ := hf.acyclic
    exact ⟨rank, fun t ht q hq => hrank t ht q ((hparent t).symm.trans hq)⟩
  · have htx := ne_of_zombie hz hlive
    exact ⟨update_of_ne htx _ _, hfirst t htx⟩

/-- A new child in the list. -/
theorem Inv.link (hi : Inv s kids) {c : Tid}
    (hpc : s.pc x = .addChild c .link) (hl : link s.tree.hh x c = some h) :
    Inv { s with tree := { s.tree with hh := h }, pc := update s.pc x (.addChild c .unlock) }
      (update kids x (c :: kids x)) := by
  obtain ⟨hprev, hnotFirst, hh⟩ := link_spec hl
  have hf := hi.forest
  obtain ⟨hc, hcx, -⟩ := hi.stageAt hpc
  have hx := hf.parent c hc x hcx
  have hloose : Loose s c := ⟨x, by rw [hpc]; exact ⟨rfl, AddPlace.noConfusion⟩⟩
  have hck : c ∉ kids x := fun hm => ((hf.mem x hx c).mp hm).2.2 hloose
  have hunloose : ∀ u, ¬ LooseBy u (.addChild c .unlock) := fun u hu => hu.2 rfl
  refine hi.relink (by simp [hpc]) (fun t => (hh t).1)
    (fun q hqx => (hh q).2.1.trans (if_neg hqx)) (fun {t q} ht hq hqx => ?_) ?_ (fun t ht => ?_)
    (fun t ht htx => ?_) (fun t ht => absurd ht (hunloose t)) ⟨hc, (hh c).1.trans hcx, trivial⟩
  · -- the children of others are not touched
    have htc : t ≠ c := by
      rintro rfl
      exact hqx (mem_unique hq hcx)
    have htf : (s.tree.hh x).firstChild ≠ some t := fun he =>
      hqx (Option.some.inj (hq.symm.trans (hi.of_mem_kids hx ((hf.list x hx).first_mem he)).2.1))
    exact ⟨(hh t).2.2.1.trans (if_neg htc), (hh t).2.2.2.trans (if_neg htf)⟩
  · rw [(hh x).2.1, if_pos rfl]
    refine (hf.list x hx).cons hck ((hh c).2.2.1.trans (if_pos rfl))
      ((hh c).2.2.2.trans ((if_neg hnotFirst).trans hprev)) (fun u hu => ?_) fun u _ => (hh u).2.2.2
    have huc : u ≠ c := fun he => hck (he ▸ hu)
    exact (hh u).2.2.1.trans (if_neg huc)
  · rcases mem_cons.mp ht with rfl | ht
    · exact ⟨hc, hcx⟩
    · obtain ⟨htask, htx, -⟩ := hi.of_mem_kids hx ht
      exact ⟨htask, htx⟩
  · refine iff_of_true ?_ (hunloose t)
    by_cases htc : t = c
    · exact htc ▸ mem_cons_self
    · refine mem_cons_of_mem _ (hi.mem_kids ht htx ?_)
      rw [hpc]
      exact fun hl => htc hl.1

/-- A child taken out of the list. -/
theorem Inv.unlink (hi : Inv s kids)
    (hpc : s.pc x = .remove t .unlink) (hl : unlink s.tree.hh t = some h) :
    Inv { s with tree := { s.tree with hh := h }, pc := update s.pc x (.remove t .unlock) }
      (update kids x ((kids x).erase t)) := by
  obtain ⟨p, hp, hfirst, hh⟩ := unlink_spec hl
  have hf := hi.forest
  obtain ⟨htask, htx, hzt, -⟩ := hi.stageAt hpc
  obtain rfl : p = x := mem_unique hp htx
  have hx := hf.parent t htask p htx
  obtain ⟨hkid, hprev, hnext⟩ := hi.neighbour hpc (by simp)
  have herase : ∀ {u}, u ∈ (kids p).erase t ↔ u ≠ t ∧ u ∈ kids p :=
    (hf.list p hx).nodup.mem_erase_iff
  refine hi.relink (by simp [hpc]) (fun u => (hh u).1)
    (fun q hqp => (hh q).2.1.trans (if_neg fun he => hqp he.1)) (fun {u q} hu hq hqp => ?_) ?_
    (fun u hu => ?_) (fun u hu hup => ?_) (fun u hu => hu.1 ▸ htx)
    ⟨htask, (hh t).1.trans htx, hzt, hfirst⟩
  · -- the children of others are not touched
    have hne : (s.tree.hh t).prevSibling ≠ some u := fun he =>
      hqp (Option.some.inj (hq.symm.trans (hi.of_mem_kids hx (hprev u he).1).2.1))
    have hne' : (s.tree.hh t).nextSibling ≠ some u := fun he =>
      hqp (Option.some.inj (hq.symm.trans (hi.of_mem_kids hx (hnext u he).1).2.1))
    exact ⟨(hh u).2.2.1.trans (if_neg hne), (hh u).2.2.2.trans (if_neg hne')⟩
  · have hone : (h p).firstChild
        = if s.tree.first p = some t then s.tree.next t else s.tree.first p := by
      rw [(hh p).2.1]
      simp only [true_and]
      rfl
    rw [hone]
    exact (hf.list p hx).erase hkid (fun u _ _ => (hh u).2.2.1) fun u _ _ => (hh u).2.2.2
  · obtain ⟨hut, hup, -⟩ := hi.of_mem_kids hx (herase.mp hu).2
    exact ⟨hut, hup⟩
  · rw [herase, hf.mem p hx u, hi.loose_iff hup, hpc]
    simp [LooseBy, hu, hup]

/-- A task that is gone. -/
theorem Inv.erase (hi : Inv s kids) (hpc : s.pc x = .remove t .unlock) (hl : s.locks x = []) :
    Inv { s with
      tree := { s.tree with tasks := s.tree.tasks.erase t }, pc := update s.pc x .run } kids := by
  have hf := hi.forest
  obtain ⟨htask, htx, hzt, hfirst⟩ := hi.stageAt hpc
  have hlive := (hi.busy x (by simp [hpc])).2
  have hmem : ∀ {u}, u ∈ s.tree.tasks.erase t ↔ u ≠ t ∧ u ∈ s.tree.tasks :=
    hf.nodup.mem_erase_iff
  -- it has no children, and nobody adds one to it
  have hchildless : ∀ u ∈ s.tree.tasks, s.tree.parent u ≠ some t := by
    intro u hu hut
    have hempty : kids t = [] := List.head?_eq_none_iff.mp ((hf.list t htask).first.symm.trans hfirst)
    have hnot : u ∉ kids t := by
      rw [hempty]
      exact not_mem_nil
    refine hnot (hi.mem_kids hu hut fun hloose => ?_)
    have hrun : s.pc t ≠ .run := by
      intro hrun
      rw [hrun] at hloose
      exact hloose
    have htlive := (hi.busy t hrun).2
    rw [hzt] at htlive
    cases htlive
  have hloose : Loose s t := ⟨x, by rw [hpc]; exact ⟨rfl, rfl⟩⟩
  refine hi.change ⟨hf.nodup.erase t, fun q hq => hf.list q (hmem.mp hq).2, fun q hq u => ?_,
    fun u hu q hq => ?_, ?_⟩ (fun y m hm => ?_) (fun _ _ => rfl) (fun _ _ => id)
    (fun h => absurd rfl h) (fun y _ hy => ?_) (fun y hy _ => ⟨fun u hu huy => hmem.mpr ⟨fun he => hy ?_, hu⟩, fun _ _ _ => ⟨rfl, rfl⟩,
      fun _ _ _ _ => ⟨rfl, rfl⟩⟩) hl
  · have hsame : u ≠ t → ((∃ y, LooseBy u (update s.pc x .run y)) ↔ Loose s u) := by
      intro hut
      rw [loose_update_iff (by rw [hpc]; exact fun h => hut h.1)]
      exact or_iff_left id
    rw [hf.mem q (hmem.mp hq).2 u, hmem, and_assoc]
    constructor
    · rintro ⟨hu, huq, hnot⟩
      have hut : u ≠ t := fun he => hnot (he ▸ hloose)
      exact ⟨hut, hu, huq, (hsame hut).not.mpr hnot⟩
    · rintro ⟨hut, hu, huq, hnot⟩
      exact ⟨hu, huq, (hsame hut).not.mp hnot⟩
  · have hu := (hmem.mp hu).2
    exact hmem.mpr ⟨fun he => hchildless u hu (he ▸ hq), hf.parent u hu q hq⟩
  · obtain ⟨rank, hrank⟩ := hf.acyclic
    exact ⟨rank, fun u hu q hq => hrank u (hmem.mp hu).2 q hq⟩
  · -- nobody has its mutex
    obtain ⟨hm', hfam⟩ := hi.family y m hm
    refine hmem.mpr ⟨?_, hm'⟩
    rintro rfl
    rcases hfam with rfl | hp | ⟨z, hz, -, hmz⟩
    · rw [hi.locks_of_zombie hzt] at hm
      exact absurd hm not_mem_nil
    · obtain rfl := mem_unique hp htx
      rw [hl] at hm
      exact absurd hm not_mem_nil
    · obtain rfl := mem_unique hmz htx
      rw [hlive] at hz
      cases hz
  · obtain ⟨hyt, hylive⟩ := hi.busy y hy
    exact ⟨hmem.mpr ⟨(ne_of_zombie hzt hylive).symm, hyt⟩, hylive⟩
  · rw [he] at huy
    exact mem_unique huy htx

theorem updateNextTid_not_mem {tasks : List Tid} : ∀ {fuel m n : Nat},
    updateNextTid tasks fuel m = some n → n ∉ tasks
  | 0, _, _, h => by cases h
  | fuel + 1, m, n, h => by
    rw [updateNextTid] at h
    split at h
    · exact updateNextTid_not_mem h
    · cases h
      assumption

section Insert

variable {n : Tid} {o : Option Tid}

theorem Tree.insert_self : (T.insert n o).hh n = newHolder o := update_self ..

theorem Tree.parent_insert_self : (T.insert n o).parent n = o :=
  congrArg HierarchyHolder.parent Tree.insert_self

variable (hnew : n ∉ T.tasks)
include hnew

theorem Tree.insert_of_mem {u : Tid} (hu : u ∈ T.tasks) :
    (T.insert n o).hh u = T.hh u ∧ (T.insert n o).zombie u = T.zombie u :=
  have hun : u ≠ n := fun he => hnew (he ▸ hu)
  ⟨update_of_ne hun _ _, update_of_ne hun _ _⟩

theorem Tree.parent_insert {u : Tid} (hu : u ∈ T.tasks) :
    (T.insert n o).parent u = T.parent u := by
  rw [Tree.parent, (Tree.insert_of_mem hnew hu).1, Tree.parent]

/-- A new task has no children, and is in no list yet if it has a parent. -/
theorem Forest.insert (hf : Forest T loose kids) {loose' : Tid → Prop} (ho : ∀ q ∈ o, q ∈ T.tasks)
    (hloose : ∀ t, loose' t ↔ loose t ∨ t = n ∧ o ≠ none) :
    Forest (T.insert n o) loose' (update kids n []) := by
  have hne : ∀ {u}, u ∈ T.tasks → u ≠ n := fun hu he => hnew (he ▸ hu)
  have hparent : ∀ u ∈ (T.insert n o).tasks, ∀ q, (T.insert n o).parent u = some q →
      q ∈ T.tasks := by
    intro u hu q hq
    rcases mem_cons.mp hu with rfl | hu
    · exact ho q (Tree.parent_insert_self.symm.trans hq)
    · exact hf.parent u hu q ((Tree.parent_insert hnew hu).symm.trans hq)
  refine ⟨nodup_cons.mpr ⟨hnew, hf.nodup⟩, fun q hq => ?_, fun q hq u => ?_,
    fun u hu q hq => mem_cons_of_mem _ (hparent u hu q hq), ?_⟩
  · rcases mem_cons.mp hq with rfl | hq
    · rw [update_self, Tree.first, Tree.insert_self]
      exact Represents.nil _ _
    · rw [update_of_ne (hne hq), Tree.first, (Tree.insert_of_mem hnew hq).1]
      refine (hf.list q hq).congr (fun u hu => ?_) (fun u hu => ?_)
      all_goals have hut := ((hf.mem q hq u).mp hu).1
      · rw [Tree.next, (Tree.insert_of_mem hnew hut).1, Tree.next]
      · rw [Tree.prev, (Tree.insert_of_mem hnew hut).1, Tree.prev]
  · rw [hloose]
    rcases mem_cons.mp hq with rfl | hq
    · rw [update_self]
      exact iff_of_false not_mem_nil fun h => hnew (hparent u h.1 q h.2.1)
    · rw [update_of_ne (hne hq), hf.mem q hq u]
      by_cases hun : u = n
      · subst hun
        refine iff_of_false (fun h => hnew h.1) fun h => h.2.2 (.inr ⟨rfl, fun hc => ?_⟩)
        rw [Tree.parent_insert_self, hc] at h
        cases h.2.1
      · have hmem : u ∈ (T.insert n o).tasks ↔ u ∈ T.tasks := by simp [Tree.insert, hun]
        rw [hmem]
        refine and_congr_right fun hu => ?_
        rw [Tree.parent_insert hnew hu]
        simp [hun]
  · obtain ⟨rank, hrank⟩ := hf.acyclic
    refine ⟨update rank n (o.elim 0 (rank · + 1)), fun u hu q hq => ?_⟩
    rw [update_of_ne (hne (hparent u hu q hq))]
    rcases mem_cons.mp hu with rfl | hu
    · rw [Tree.parent_insert_self] at hq
      rw [update_self, hq]
      exact Nat.lt_succ_self _
    · rw [update_of_ne (hne hu)]
      exact hrank u hu q ((Tree.parent_insert hnew hu).symm.trans hq)

end Insert

/-- A new task, not yet in the list of its parent. -/
theorem Inv.addTask (hi : Inv s kids) (hx : x ∈ s.tree.tasks) (hlive : s.tree.zombie x = false)
    (hpc : s.pc x = .run) (ha : addTask s x = some s') :
    ∃ n, n ∉ s.tree.tasks ∧ s'.tree = s.tree.insert n (if 1 < n then some x else none) ∧
      Inv s' (update kids n []) := by
  obtain ⟨n, hn, ha⟩ := of_bind ha
  cases ha
  have hnew := updateNextTid_not_mem hn
  refine ⟨n, hnew, rfl, ?_⟩
  have hlocks : s.locks x = [] := hi.stageAt hpc
  -- the place of `x` afterwards
  obtain ⟨p, hp⟩ : ∃ p : Pc, p = if 1 < n then .addChild n .child else .run := ⟨_, rfl⟩
  have hpcs : (if 1 < n then update (update s.pc n .run) x (.addChild n .child)
      else update s.pc n .run) = update s.pc x p := by
    have hrun : update s.pc n .run = s.pc := by
      rw [← (hi.locks_of_not_mem hnew).1]
      exact update_eq_self n s.pc
    rw [hrun, hp]
    split
    · rfl
    · rw [← hpc]
      exact (update_eq_self x s.pc).symm
  rw [hpcs]
  obtain ⟨o, ho⟩ : ∃ o, o = if 1 < n then some x else none := ⟨_, rfl⟩
  rw [← ho]
  have hsame : ∀ {u}, u ∈ s.tree.tasks → (s.tree.insert n o).hh u = s.tree.hh u ∧
      (s.tree.insert n o).zombie u = s.tree.zombie u := fun hu => Tree.insert_of_mem hnew hu
  have hstay : ∀ {u}, u ∈ s.tree.tasks → s.tree.zombie u = false →
      u ∈ (s.tree.insert n o).tasks ∧ (s.tree.insert n o).zombie u = false := fun hu hlive =>
    ⟨mem_cons_of_mem _ hu, (hsame hu).2.trans hlive⟩
  have hforest : Forest (s.tree.insert n o) (fun t => ∃ y, LooseBy t (update s.pc x p y))
      (update kids n []) := by
    refine hi.forest.insert hnew (fun q hq => ?_) fun t => ?_
    · rw [ho] at hq
      split at hq
      · exact Option.some.inj hq ▸ hx
      · cases hq
    · rw [loose_update_iff (by rw [hpc]; exact id), hp, ho]
      refine or_congr_right ?_
      split <;> simp [LooseBy]
  have hinv : Inv { s with tree := s.tree.insert n o, pc := update s.pc x p } (update kids n []) := by
    refine hi.change hforest (fun y m hm => mem_cons_of_mem _ (hi.family y m hm).1)
      (fun u hu => Tree.parent_insert hnew hu) (fun u hu hz => (hsame hu).2.trans hz)
      (fun _ => hstay hx hlive) (fun y _ hy => hstay (hi.busy y hy).1 (hi.busy y hy).2)
      (fun y hy _ => ⟨fun u hu _ => mem_cons_of_mem _ hu, fun u hu _ => ?_, fun u hu _ _ => ?_⟩) ?_
    · rw [Tree.next, Tree.prev, (hsame hu).1]
      exact ⟨rfl, rfl⟩
    · rw [Tree.first, (hsame hu).1]
      exact ⟨update_of_ne (fun he : u = n => hnew (he ▸ hu)) _ _, rfl⟩
    · rw [hlocks, hp]
      split
      · rename_i h1
        refine ⟨mem_cons_self, ?_, rfl⟩
        rw [Tree.parent_insert_self, ho, if_pos h1]
      · rfl
  exact { hinv with }

/-- A task that exits is in none of these functions. -/
theorem Inv.terminate (hi : Inv s kids) (hpc : s.pc x = .run) :
    Inv { s with tree := { s.tree with zombie := update s.tree.zombie x true } } kids := by
  have hzom : ∀ {u}, s.tree.zombie u = true → update s.tree.zombie x true u = true := by
    intro u hu
    by_cases hux : u = x
    · rw [hux, update_self]
    · rwa [update_of_ne hux]
  refine { hi with
    forest := { hi.forest with }
    family := fun y m hm => ?_
    busy := fun y hy => ?_
    stage := fun y => ?_ }
  · obtain ⟨hmt, hfam⟩ := hi.family y m hm
    exact ⟨hmt, hfam.imp id (Or.imp id fun ⟨z, hz, hrest⟩ => ⟨z, hzom hz, hrest⟩)⟩
  · have hyx : y ≠ x := by
      rintro rfl
      exact hy hpc
    obtain ⟨hyt, hlive⟩ := hi.busy y hy
    exact ⟨hyt, (update_of_ne hyx _ _).trans hlive⟩
  · exact (hi.stage y).kept (fun _ _ => rfl) (fun _ _ => hzom)
      fun _ => ⟨fun _ ht _ => ht, fun _ _ _ => ⟨rfl, rfl⟩, fun _ _ _ _ => ⟨rfl, rfl⟩⟩

/-! ## Every step -/

theorem Inv.waitFor (hi : Inv s kids) (hx : x ∈ s.tree.tasks) (hlive : s.tree.zombie x = false)
    (hl : s.locks x = []) (hloose : ∀ u, ¬ LooseBy u (s.pc x)) (hw : waitFor s x t = some s') :
    Inv s' kids := by
  have hrun : Inv (s.goto x .run) kids :=
    hi.goto (fun u => iff_of_false id (hloose u)) (fun h => absurd rfl h) hl
  unfold Tasks.waitFor at hw
  split at hw
  · rename_i ht
    obtain ⟨p, hp, hw⟩ := of_bind hw
    split at hw
    · rename_i hpx
      cases hw
      exact hi.goto (fun u => iff_of_false id (hloose u)) (fun _ => ⟨hx, hlive⟩)
        ⟨hl, ht, hpx ▸ hp⟩
    · cases hw
      exact hrun
  · cases hw
    exact hrun

/-- The task takes the mutex behind a pointer, if it is not null. -/
theorem Inv.lockIf (hi : Inv s kids) {o : Option Tid} (hw : wants s x = o)
    (hpc : s.pc x ≠ .run) (hloose : ∀ t, LooseBy t p ↔ LooseBy t (s.pc x))
    (hstage : Stage s.tree kids x p (s.locks x ++ o.toList)) (hl : lockIf s x o p = some s') :
    Inv s' kids := by
  cases o with
  | some m => exact hi.lock hw hloose hstage hl
  | none =>
    cases hl
    rw [Option.toList_none, append_nil] at hstage
    exact hi.goto hloose (fun _ => hi.busy x hpc) hstage

/-- One mutex is given back, or there is none left. -/
theorem Inv.unlockOr (hi : Inv s kids) {i : Nat} {o : Option State}
    (hany : ∀ l, Stage s.tree kids x (s.pc x) l) (hu : Tasks.unlock s x i o = some s') :
    Inv s' kids ∨ s.locks x = [] ∧ o = some s' := by
  unfold Tasks.unlock at hu
  split at hu
  · exact .inr ⟨‹_›, hu⟩
  · obtain ⟨m, hm, hu⟩ := of_bind hu
    cases hu
    exact .inl (hi.unlock (List.mem_of_getElem? hm) (hany _))

theorem Inv.advance {i : Nat} (hi : Inv s kids) (ha : advance s x i = some s') :
    ∃ kids', Inv s' kids' := by
  unfold Tasks.advance at ha
  split at ha
  · cases ha
  · -- `addChild`
    rename_i c hpc
    obtain ⟨hc, hcx, hl⟩ := hi.stageAt hpc
    have hw : wants s x = some c := by rw [wants, hpc]
    exact ⟨kids, hi.lock (p := .addChild c .parent) hw (by simp [hpc, LooseBy])
      ⟨hc, hcx, by rw [hl]; rfl⟩ ha⟩
  · rename_i c hpc
    obtain ⟨hc, hcx, hl⟩ := hi.stageAt hpc
    have hw : wants s x = some x := by rw [wants, hpc]
    exact ⟨kids, hi.lock (p := .addChild c .first) hw (by simp [hpc, LooseBy])
      ⟨hc, hcx, by rw [hl]; rfl⟩ ha⟩
  · rename_i c hpc
    obtain ⟨hc, hcx, -⟩ := hi.stageAt hpc
    have hw : wants s x = s.tree.first x := by rw [wants, hpc]
    exact ⟨kids, hi.lockIf (p := .addChild c .link) hw (by simp [hpc]) (by simp [hpc, LooseBy])
      ⟨hc, hcx, trivial⟩ ha⟩
  · rename_i c hpc
    obtain ⟨h, hl, ha⟩ := of_bind ha
    cases ha
    exact ⟨_, hi.link hpc hl⟩
  · rename_i c hpc
    obtain ⟨hc, hcx, -⟩ := hi.stageAt hpc
    rcases hi.unlockOr (fun l => by rw [hpc]; exact ⟨hc, hcx, trivial⟩) ha with hinv | ⟨hl, hdone⟩
    · exact ⟨kids, hinv⟩
    · cases hdone
      exact ⟨kids, hi.goto (by simp [hpc, LooseBy]) (fun h => absurd rfl h) hl⟩
  · -- `wait(-1)`
    rename_i hpc
    have hw : wants s x = some x := by rw [wants, hpc]
    exact ⟨kids, hi.lock (p := .firstChild .read) hw (by simp [hpc, LooseBy]) trivial ha⟩
  · rename_i hpc
    cases ha
    exact ⟨kids, hi.goto (by simp [hpc, LooseBy]) (fun _ => hi.busy x (by simp [hpc])) trivial⟩
  · rename_i hpc
    rcases hi.unlockOr (fun l => by rw [hpc]; trivial) ha with hinv | ⟨hl, hdone⟩
    · exact ⟨kids, hinv⟩
    · cases hdone
      exact ⟨kids, hi.goto (by simp [hpc, LooseBy]) (fun h => absurd rfl h) hl⟩
  · rename_i t hpc
    rcases hi.unlockOr (fun l => by rw [hpc]; trivial) ha with hinv | ⟨hl, hdone⟩
    · exact ⟨kids, hinv⟩
    · obtain ⟨hx, hlive⟩ := hi.busy x (by simp [hpc])
      exact ⟨kids, hi.waitFor hx hlive hl (by simp [hpc, LooseBy]) hdone⟩
  · -- the rest of `wait`
    rename_i t hpc
    obtain ⟨hl, ht, htx⟩ := hi.stageAt hpc
    obtain ⟨hz, ha⟩ := of_assert ha
    obtain ⟨-, ha⟩ := of_assert ha
    cases ha
    exact ⟨kids, hi.goto (by simp [hpc, LooseBy]) (fun _ => hi.busy x (by simp [hpc]))
      ⟨ht, htx, hz, hl⟩⟩
  · -- `~HierarchyHolder`
    rename_i t hpc
    obtain ⟨ht, htx, hz, hl⟩ := hi.stageAt hpc
    have hw : wants s x = s.tree.parent t := by rw [wants, hpc]
    refine ⟨kids, hi.lockIf (p := .remove t .prev) hw (by simp [hpc]) (by simp [hpc, LooseBy])
      ⟨ht, htx, hz, ?_⟩ ha⟩
    rw [hl, htx]
    rfl
  · rename_i t hpc
    obtain ⟨ht, htx, hz, hl⟩ := hi.stageAt hpc
    have hw : wants s x = s.tree.prev t := by rw [wants, hpc]
    refine ⟨kids, hi.lockIf (p := .remove t .self) hw (by simp [hpc]) (by simp [hpc, LooseBy])
      ⟨ht, htx, hz, ?_⟩ ha⟩
    rw [hl]
    rfl
  · rename_i t hpc
    obtain ⟨ht, htx, hz, hl⟩ := hi.stageAt hpc
    have hw : wants s x = some t := by rw [wants, hpc]
    refine ⟨kids, hi.lock (p := .remove t .next) hw (by simp [hpc, LooseBy])
      ⟨ht, htx, hz, ?_⟩ ha⟩
    rw [hl]
    rfl
  · rename_i t hpc
    obtain ⟨ht, htx, hz, hl⟩ := hi.stageAt hpc
    have hw : wants s x = s.tree.next t := by rw [wants, hpc]
    refine ⟨kids, hi.lockIf (p := .remove t (.child (s.tree.first t))) hw (by simp [hpc])
      (by simp [hpc, LooseBy]) ⟨ht, htx, hz, [], kids t, rfl, (hi.forest.list t ht).first, ?_⟩ ha⟩
    rw [hl]
    simp
  · rename_i t c hpc
    obtain ⟨ht, htx, hz, front, back, hkids, hcur, hl⟩ := hi.stageAt hpc
    obtain ⟨back, rfl⟩ := List.head?_eq_some_iff.mp hcur.symm
    have hw : wants s x = some c := by rw [wants, hpc]
    refine ⟨kids, hi.lock (p := .remove t (.child (s.tree.next c))) hw (by simp [hpc, LooseBy])
      ⟨ht, htx, hz, front ++ [c], back, by simp [hkids], ?_, ?_⟩ ha⟩
    · exact (hi.forest.list t ht).next front c back hkids
    · rw [hl]
      simp
  · rename_i t hpc
    obtain ⟨ht, htx, hz, -⟩ := hi.stageAt hpc
    cases ha
    exact ⟨kids, hi.goto (by simp [hpc, LooseBy]) (fun _ => hi.busy x (by simp [hpc]))
      ⟨ht, htx, hz, trivial⟩⟩
  · rename_i t hpc
    obtain ⟨h, hl, ha⟩ := of_bind ha
    cases ha
    exact ⟨_, hi.unlink hpc hl⟩
  · rename_i t hpc
    have hst := hi.stageAt hpc
    rcases hi.unlockOr (fun l => by rw [hpc]; exact hst) ha with hinv | ⟨hl, hdone⟩
    · exact ⟨kids, hinv⟩
    · cases hdone
      exact ⟨kids, hi.erase hpc hl⟩

theorem inv_step {a : Action} (hi : Inv s kids) (hs : step s a = some s') :
    ∃ kids', Inv s' kids' := by
  obtain ⟨⟨hx, hlive⟩, hs⟩ := of_assert hs
  cases a with
  | addTask x =>
    obtain ⟨hpc, hs⟩ := of_assert hs
    obtain ⟨n, -, -, hinv⟩ := hi.addTask hx hlive hpc hs
    exact ⟨_, hinv⟩
  | wait x t =>
    obtain ⟨hpc, hs⟩ := of_assert hs
    have hl : s.locks x = [] := hi.stageAt hpc
    have hnone : ∀ u, ¬ LooseBy u (s.pc x) := by simp [hpc, LooseBy]
    unfold Tasks.wait at hs
    split at hs
    · cases hs
      exact ⟨kids, hi.goto (fun u => iff_of_false id (hnone u)) (fun _ => ⟨hx, hlive⟩) hl⟩
    · exact ⟨kids, hi.waitFor hx hlive hl hnone hs⟩
  | terminateCurrentTask x =>
    obtain ⟨hpc, hs⟩ := of_assert hs
    obtain ⟨-, hs⟩ := of_assert hs
    cases hs
    exact ⟨kids, hi.terminate hpc⟩
  | advance x i => exact hi.advance hs

/-! ## Whole runs -/

/-- Nobody is in any of the functions, and no mutex is taken. -/
structure Quiet (s : State) : Prop where
  pc : ∀ x, s.pc x = .run
  locks : ∀ x, s.locks x = []
  holder : ∀ m, s.holder m = none

theorem Quiet.not_loose (hq : Quiet s) (t : Tid) : ¬ Loose s t := by
  rintro ⟨x, hx⟩
  rw [hq.pc x] at hx
  exact hx

theorem Quiet.inv (hq : Quiet s) (hf : Forest s.tree (fun _ => False) kids) : Inv s kids where
  forest := hf.congr fun t => (iff_false_intro (hq.not_loose t)).symm
  holder m x := by simp [hq.holder m, hq.locks x]
  locksNodup x := by simp [hq.locks x]
  family x m hm := by simp [hq.locks x] at hm
  busy x hx := absurd (hq.pc x) hx
  stage x := by
    rw [hq.pc x, hq.locks x]
    rfl

theorem Inv.reach (hi : Inv s₀ kids) (hs : Reach step (fun _ _ => True) s₀ s) :
    ∃ kids', Inv s kids' :=
  hs.invariant (I := fun s => ∃ kids', Inv s kids') ⟨kids, hi⟩
    fun _ _ _ ⟨_, h⟩ _ hstep => inv_step h hstep

end Facts

/-- Task 1 alone. -/
def boot : State where
  tree := ⟨[1], fun _ => newHolder none, fun _ => false⟩
  nextTid := 2
  holder _ := none
  locks _ := []
  pc _ := .run

theorem quiet_boot : Quiet boot := ⟨fun _ => rfl, fun _ => rfl, fun _ => rfl⟩

theorem forest_boot : Forest boot.tree (fun _ => False) (fun _ => []) where
  nodup := List.nodup_singleton 1
  list _ _ := Represents.nil _ _
  mem _ _ _ := iff_of_false not_mem_nil fun h => by cases h.2.1
  parent _ _ _ h := by cases h
  acyclic := ⟨fun _ => 0, fun _ _ _ h => by cases h⟩

end Flix.Tasks

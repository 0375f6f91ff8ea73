import Flix.Paging.Ops

/-!
# The pages of a process, one after the other

`forEachUserPage` goes down the tables in four nested loops and leaves out what is
not there. Its test for the end of user space is made on sign-extended addresses,
so that it passes exactly for the lower half. What the loops come to is a single
loop over the pages of the lower half in order, which does something at those that
are valid.

The tables are read as the loops come to them, and the function may change tables
(`clone` maps a page into the very directory that is traversed). All it has to keep
is what is seen of the lower half of this directory.
-/

namespace Flix.Paging

open Function Radix

variable {κ σ : Type}

/-- Page `n` of the address space. -/
def userPage (n : Nat) : VAddr := BitVec.ofNat 64 (n * PAGE_SIZE)

/-- How many of them are in the lower half. -/
def lowerPages : Nat := 256 * 512 ^ 3

theorem userPage_toNat {n : Nat} (hn : n < 2 ^ 36) : (userPage n).toNat = n * PAGE_SIZE := by
  rw [userPage, BitVec.toNat_ofNat, PAGE_SIZE]
  omega

theorem index_userPage {n : Nat} (hn : n < 2 ^ 36) (level : Nat) :
    index level (userPage n) = n / 512 ^ level % 512 := by
  have hpow : 2 ^ (12 + 9 * level) = PAGE_SIZE * 512 ^ level := by
    rw [pow_add, pow_mul]
    rfl
  rw [index, userPage_toNat hn, hpow, mul_comm n, Nat.mul_div_mul_left _ _ (by decide)]

section Numbers

variable (i4 i3 i2 i1 : Nat) (h4 : i4 < 512) (h3 : i3 < 512) (h2 : i2 < 512) (h1 : i1 < 512)
include h4 h3 h2 h1

/-- The indices of a page are the digits of its number. -/
theorem path_userPage :
    path (userPage (((i4 * 512 + i3) * 512 + i2) * 512 + i1)) = [i4, i3, i2] ∧
      index 0 (userPage (((i4 * 512 + i3) * 512 + i2) * 512 + i1)) = i1 := by
  have hn : ((i4 * 512 + i3) * 512 + i2) * 512 + i1 < 2 ^ 36 := by omega
  rw [path, index_userPage hn, index_userPage hn, index_userPage hn, index_userPage hn]
  simp only [List.cons.injEq, and_true]
  omega

end Numbers

theorem lower_not_shared {n : Nat} (hn : n < lowerPages) : ¬ Shared (userPage n) := by
  have hn' : n < 2 ^ 35 := hn
  rintro ⟨h3, -⟩
  rw [index_userPage (by omega)] at h3
  omega

theorem userPage_slot_inj {d m n : Nat} (hm : m < lowerPages) (hn : n < lowerPages)
    (hs : slotOf d (userPage m) = slotOf d (userPage n)) : m = n := by
  have hm' : m < 2 ^ 35 := hm
  have hn' : n < 2 ^ 35 := hn
  have hpage := path_eq_iff.mp (slotOf_eq_iff.mp hs).1
  rw [pageOf, pageOf, userPage_toNat (by omega), userPage_toNat (by omega),
    Nat.mul_div_cancel _ (by decide), Nat.mul_div_cancel _ (by decide)] at hpage
  omega

/-- Addresses of the lower half. -/
def Low (v : VAddr) : Prop := v.toNat < 2 ^ 47

instance (v : VAddr) : Decidable (Low v) := inferInstanceAs (Decidable (_ < _))

theorem Low.pageOf_lt {v : VAddr} (hv : Low v) : pageOf v < lowerPages := by
  have hv' : v.toNat < 2 ^ 47 := hv
  show v.toNat / 4096 < 2 ^ 35
  omega

theorem pageOf_userPage {n : Nat} (hn : n < lowerPages) : pageOf (userPage n) = n := by
  have hn' : n < 2 ^ 35 := hn
  rw [pageOf, userPage_toNat (by omega), Nat.mul_div_cancel _ (by decide)]

/-- An address and the page it is on have one entry. -/
theorem Low.pte_eq {v : VAddr} (hv : Low v) (w : World) (r : Nat) :
    pte w r v = pte w r (userPage (pageOf v)) := by
  obtain ⟨hpath, hindex⟩ := path_eq_iff.mpr
    (congrArg (· % 2 ^ 36) (pageOf_userPage hv.pageOf_lt).symm)
  rw [pte, pte, hpath, hindex]

theorem Low.not_shared {v : VAddr} (hv : Low v) : ¬ Shared v := by
  rintro ⟨h3, -⟩
  have hv' : v.toNat < 2 ^ 47 := hv
  simp only [index] at h3
  omega

theorem Low.slot_inj {r : Nat} {v v' : VAddr} (hv : Low v) (hv' : Low v') (hs : slotOf r v = slotOf r v') :
    pageOf v = pageOf v' := by
  have hpage := path_eq_iff.mp (slotOf_eq_iff.mp hs).1
  have hlt : pageOf v < 2 ^ 35 := hv.pageOf_lt
  have hlt' : pageOf v' < 2 ^ 35 := hv'.pageOf_lt
  omega

/-- The entry of a page in a store of tables. -/
def pageEntry (T : Store Entry) (root n : Nat) : Entry :=
  leaf .zero T root (path (userPage n)) (index 0 (userPage n))

theorem pageEntry_eq_pte (w : World) (root n : Nat) :
    pageEntry w.tables root n = pte w root (userPage n) := rfl

/-- The function, at a page that is valid. -/
def visit (T : Store Entry) (f : σ → Entry → VAddr → Traced κ σ) (root : Nat) (s : σ) (n : Nat) :
    Traced κ σ :=
  if (pageEntry T root n).isValid then f s (pageEntry T root n) (userPage n) else pure s

/-- Paths into the lower half. -/
def Lower (p : List Nat) : Prop := ∀ i ∈ p.head?, i < 256

/-- The lower half of a directory shows in `T` what it shows in `T₀`. There may be more tables. -/
structure Keeps (T₀ T : Store Entry) (root : Nat) : Prop where
  live : ∀ {p t}, follow T root p = some t → (T t).isSome
  follow_of : ∀ {p t}, Lower p → follow T₀ root p = some t → follow T root p = some t
  page_eq : ∀ {n}, n < 2 ^ 35 → pageEntry T root n = pageEntry T₀ root n

/-- The paths of a directory stay. -/
def PathsStay (T T' : Store Entry) (root : Nat) : Prop :=
  ∀ p t, follow T root p = some t → follow T' root p = some t

section Loops

variable {T₀ : Store Entry} {T : σ → Store Entry} {f : σ → Entry → VAddr → Traced κ σ} {root : Nat}

theorem Keeps.node {s : σ} {p : List Nat} {t : Nat} (h : Keeps T₀ (T s) root)
    (hp : follow (T s) root p = some t) :
    ∃ n, T s t = some n ∧ ∀ i, n.next i = follow (T s) root (p ++ [i]) := by
  obtain ⟨n, hn⟩ := isSome_iff_exists.mp (h.live hp)
  exact ⟨n, hn, fun i => (follow_snoc hp hn).symm⟩

/-- Where there is nothing now there was nothing at the start. -/
theorem Keeps.none_of {s : σ} {p : List Nat} (h : Keeps T₀ (T s) root) (hlow : Lower p)
    (hp : follow (T s) root p = none) : follow T₀ root p = none := by
  cases hp0 : follow T₀ root p with
  | none => rfl
  | some t =>
    rw [h.follow_of hlow hp0] at hp
    cases hp

/-- Nothing is visited below a slot that is empty. -/
theorem visit_of_none {s : σ} {p : List Nat} {n : Nat} (hp : follow T₀ root p = none)
    (hn : p <+: path (userPage n)) : visit T₀ f root s n = pure s := by
  obtain ⟨q, hq⟩ := hn
  have hnone : follow T₀ root (path (userPage n)) = none := by
    rw [← hq, follow_append, hp]
    rfl
  have hzero : pageEntry T₀ root n = .zero := leaf_of_none hnone
  rw [visit, hzero]
  rfl

theorem foldlM_pure {l : List Nat} {g : σ → Nat → Traced κ σ} {s : σ}
    (h : ∀ s, ∀ i ∈ l, g s i = pure s) : l.foldlM g s = pure s := by
  induction l generalizing s with
  | nil => rfl
  | cons a l ih =>
    rw [foldlM_cons, h s a mem_cons_self]
    exact ih fun s i hi => h s i (mem_cons_of_mem _ hi)

/-- All pages whose number starts with the digits of `n`, with `k` more of them. -/
def below (T : Store Entry) (f : σ → Entry → VAddr → Traced κ σ) (root : Nat) :
    Nat → σ → Nat → Traced κ σ
  | 0, s, n => visit T f root s n
  | k + 1, s, n => (List.range 512).foldlM (fun s i => below T f root k s (n * 512 + i)) s

/-- A loop over two digits is one over the number. -/
theorem foldlM_range_mul {g : σ → Nat → Traced κ σ} {a b : Nat} {s : σ} :
    (List.range (a * b)).foldlM g s
      = (List.range a).foldlM (fun s i => (List.range b).foldlM (fun s j => g s (i * b + j)) s) s := by
  induction a generalizing s with
  | zero => rw [Nat.zero_mul]; rfl
  | succ a ih =>
    rw [Nat.succ_mul, List.range_add, List.foldlM_append, List.range_succ, List.foldlM_append, ih]
    congr 1
    funext s
    rw [foldlM_cons, List.foldlM_map]
    simp only [List.foldlM_nil, bind_pure]

theorem below_eq (k : Nat) (s : σ) (n : Nat) :
    below T₀ f root k s n
      = (List.range (512 ^ k)).foldlM (fun s j => visit T₀ f root s (n * 512 ^ k + j)) s := by
  induction k generalizing s n with
  | zero =>
    rw [pow_zero, List.range_one, foldlM_cons, mul_one]
    simp only [below, List.foldlM_nil, bind_pure, add_zero]
  | succ k ih =>
    have hnum : ∀ i j, (n * 512 + i) * 512 ^ k + j = n * 512 ^ (k + 1) + (i * 512 ^ k + j) := by
      intro i j
      rw [pow_succ', add_mul, mul_assoc, add_assoc]
    have hdigit : (fun s i => below T₀ f root k s (n * 512 + i)) = fun s i =>
        (List.range (512 ^ k)).foldlM
          (fun s j => visit T₀ f root s (n * 512 ^ (k + 1) + (i * 512 ^ k + j))) s := by
      funext s i
      rw [ih]
      simp only [hnum]
    rw [below, hdigit, pow_succ' 512 k, foldlM_range_mul]

theorem below_of_none {k n : Nat} {s : σ} {p : List Nat} (hp : follow T₀ root p = none)
    (hn : ∀ j < 512 ^ k, p <+: path (userPage (n * 512 ^ k + j))) :
    below T₀ f root k s n = pure s := by
  rw [below_eq]
  exact foldlM_pure fun s j hj => visit_of_none hp (hn j (mem_range.mp hj))

theorem lower_cons {i : Nat} (hi : i < 256) (p : List Nat) : Lower (i :: p) := by
  intro j hj
  cases hj
  exact hi

variable {I : σ → Prop} (hI : ∀ s, I s → Keeps T₀ (T s) root)
  (hf : ∀ s n s', I s → n < 2 ^ 35 → (pageEntry T₀ root n).isValid →
    (f s (pageEntry T₀ root n) (userPage n)).result = some s' →
    I s' ∧ PathsStay (T s) (T s') root)
include hf

/-- The invariant and the paths after some of the pages. -/
theorem below_keeps {k n : Nat} {s s' : σ} (hs : I s) (hn : (n + 1) * 512 ^ k ≤ 2 ^ 35)
    (h : (below T₀ f root k s n).result = some s') : I s' ∧ PathsStay (T s) (T s') root := by
  have hspec : Traced.Spec False (fun _ => True) (fun s' => I s' ∧ PathsStay (T s) (T s') root)
      (below T₀ f root k s n) := by
    rw [below_eq]
    refine Traced.Spec.foldlM_range (fun _ s' => I s' ∧ PathsStay (T s) (T s') root)
      ⟨hs, fun _ _ => id⟩ ?_
    rintro s1 j hj ⟨hs1, hstay⟩
    refine ⟨fun _ _ => trivial, fun {s2} hs2 => ?_, fun h => h.elim⟩
    rw [visit] at hs2
    split at hs2
    next hvalid =>
      rw [add_mul] at hn
      obtain ⟨hI2, hstay2⟩ := hf _ _ _ hs1 (by omega) hvalid hs2
      exact ⟨hI2, fun p t hp => hstay2 p t (hstay p t hp)⟩
    next =>
      rw [← Option.some.inj hs2]
      exact ⟨hs1, hstay⟩
  exact hspec.post h

include hI

section Levels

variable {i4 i3 i2 t : Nat} (h4 : i4 < 256) (h3 : i3 < 512) (h2 : i2 < 512) {s : σ} (hs : I s)
include h4 hs

include h3 h2 in
theorem forEachLevel1_eq (ht : follow (T s) root [i4, i3, i2] = some t) :
    forEachLevel1 T f (i4 * 2 ^ 39 + i3 * 2 ^ 30 + i2 * 2 ^ 21) t s
      = below T₀ f root 1 s ((i4 * 512 + i3) * 512 + i2) := by
  refine Traced.foldlM_congr (fun s => I s ∧ follow (T s) root [i4, i3, i2] = some t) ⟨hs, ht⟩ ?_ ?_
  · rintro s i1 ⟨hs, ht⟩ h1
    have hk := hI _ hs
    have h1 := mem_range.mp h1
    obtain ⟨n, hn⟩ := isSome_iff_exists.mp (hk.live ht)
    obtain ⟨hpath, hindex⟩ := path_userPage i4 i3 i2 i1 (by omega) h3 h2 h1
    have hentry : n.entries i1 = pageEntry T₀ root (((i4 * 512 + i3) * 512 + i2) * 512 + i1) := by
      rw [← hk.page_eq (by omega), pageEntry, hpath, hindex, leaf_of_follow ht hn]
    have haddr : BitVec.ofNat 64 (i4 * 2 ^ 39 + i3 * 2 ^ 30 + i2 * 2 ^ 21 + i1 * 2 ^ 12)
        = userPage (((i4 * 512 + i3) * 512 + i2) * 512 + i1) := by
      rw [userPage, PAGE_SIZE]
      exact congrArg _ (by omega)
    rw [below, visit, ← hentry, ← haddr, hn, Traced.lift_some_bind]
  · rintro s i1 s' ⟨hs, ht⟩ h1 hres
    have h1 := mem_range.mp h1
    obtain ⟨hs', hstay⟩ := below_keeps hf hs (by rw [pow_zero]; omega) hres
    exact ⟨hs', hstay _ _ ht⟩

include h3 in
theorem forEachLevel2_eq (ht : follow (T s) root [i4, i3] = some t) :
    forEachLevel2 T f (i4 * 2 ^ 39 + i3 * 2 ^ 30) t s = below T₀ f root 2 s (i4 * 512 + i3) := by
  refine Traced.foldlM_congr (fun s => I s ∧ follow (T s) root [i4, i3] = some t) ⟨hs, ht⟩ ?_ ?_
  · rintro s i2 ⟨hs, ht⟩ h2
    have h2 := mem_range.mp h2
    obtain ⟨n, hn, hnext⟩ := (hI _ hs).node ht
    rw [hn, Traced.lift_some_bind, hnext i2]
    cases hu : follow (T s) root ([i4, i3] ++ [i2]) with
    | none =>
      have hu0 := (hI _ hs).none_of (lower_cons h4 _) hu
      refine (below_of_none hu0 fun j hj => ?_).symm
      obtain ⟨hpath, -⟩ := path_userPage i4 i3 i2 j (by omega) h3 h2 (by omega)
      rw [pow_one, hpath]
      exact ⟨[], rfl⟩
    | some u =>
      rw [Option.elim_some]
      exact forEachLevel1_eq hI hf h4 h3 h2 hs hu
  · rintro s i2 s' ⟨hs, ht⟩ h2 hres
    have h2 := mem_range.mp h2
    obtain ⟨hs', hstay⟩ := below_keeps hf hs (by rw [pow_one]; omega) hres
    exact ⟨hs', hstay _ _ ht⟩

theorem forEachLevel3_eq (ht : follow (T s) root [i4] = some t) :
    forEachLevel3 T f (i4 * 2 ^ 39) t s = below T₀ f root 3 s i4 := by
  refine Traced.foldlM_congr (fun s => I s ∧ follow (T s) root [i4] = some t) ⟨hs, ht⟩ ?_ ?_
  · rintro s i3 ⟨hs, ht⟩ h3
    have h3 := mem_range.mp h3
    obtain ⟨n, hn, hnext⟩ := (hI _ hs).node ht
    rw [hn, Traced.lift_some_bind, if_neg (by omega), hnext i3]
    cases hu : follow (T s) root ([i4] ++ [i3]) with
    | none =>
      have hu0 := (hI _ hs).none_of (lower_cons h4 _) hu
      refine (below_of_none hu0 fun j hj => ?_).symm
      have hj : j < 512 * 512 := hj
      obtain ⟨hpath, -⟩ := path_userPage i4 i3 (j / 512) (j % 512) (by omega) h3
        (by omega) (by omega)
      have hnum : (i4 * 512 + i3) * 512 ^ 2 + j
          = ((i4 * 512 + i3) * 512 + j / 512) * 512 + j % 512 := by omega
      rw [hnum, hpath]
      exact ⟨[_], rfl⟩
    | some u =>
      rw [Option.elim_some]
      exact forEachLevel2_eq hI hf h4 h3 hs hu
  · rintro s i3 s' ⟨hs, ht⟩ h3 hres
    have h3 := mem_range.mp h3
    obtain ⟨hs', hstay⟩ := below_keeps hf (k := 2) hs (by omega) hres
    exact ⟨hs', hstay _ _ ht⟩

end Levels

omit hI hf in
/-- The upper half is passed over, whatever is below. -/
theorem forEachLevel3_upper {s : σ} {i t : Nat} (hi : 256 ≤ i) (hi' : i < 512)
    (ht : (T s t).isSome) : forEachLevel3 T f (extendSign (i * 2 ^ 39)) t s = pure s := by
  obtain ⟨n, hn⟩ := isSome_iff_exists.mp ht
  have hskip : (List.range 512).foldlM (m := Traced κ) (fun s _ => pure s) s = pure s :=
    foldlM_pure fun _ _ _ => rfl
  refine (Traced.foldlM_congr (· = s) rfl ?_ ?_).trans hskip
  · intro s' i3 hs' h3
    rw [hs', hn, Traced.lift_some_bind, if_pos]
    rw [extendSign, if_neg (by omega)]
    omega
  · intro s' i3 s'' hs' h3 hres
    rw [← hs', ← Option.some.inj hres]

theorem forEachUserPage_slot {s : σ} (hs : I s) {i : Nat} (hi : i < 512) {n : Node Entry}
    (hn : T s root = some n) :
    (n.next i).elim (pure s) (fun u => forEachLevel3 T f (extendSign (i * 2 ^ 39)) u s)
      = if i < 256 then below T₀ f root 3 s i else pure s := by
  have hk := hI _ hs
  have hnext : n.next i = follow (T s) root [i] := (follow_snoc (p := []) rfl hn).symm
  rw [hnext]
  by_cases h4 : i < 256
  · rw [if_pos h4]
    cases hu : follow (T s) root [i] with
    | none =>
      have hu0 := hk.none_of (lower_cons h4 _) hu
      refine (below_of_none hu0 fun j hj => ?_).symm
      obtain ⟨hpath, -⟩ := path_userPage i (j / 512 / 512) (j / 512 % 512)
        (j % 512) hi (by omega) (by omega) (by omega)
      have hnum : i * 512 ^ 3 + j
          = ((i * 512 + j / 512 / 512) * 512 + j / 512 % 512) * 512 + j % 512 := by omega
      rw [hnum, hpath]
      exact ⟨[_, _], rfl⟩
    | some u =>
      have hext : extendSign (i * 2 ^ 39) = i * 2 ^ 39 := by
        rw [extendSign, if_pos (by omega)]
        omega
      rw [Option.elim_some, hext]
      exact forEachLevel3_eq hI hf h4 hs hu
  · rw [if_neg h4]
    cases hu : follow (T s) root [i] with
    | none => rfl
    | some u =>
      rw [Option.elim_some]
      exact forEachLevel3_upper (by omega) hi (hk.live hu)

/-- The traversal is a loop over the pages of the lower half. -/
theorem forEachUserPage_eq {s : σ} (hs : I s) :
    forEachUserPage T f root s = (List.range lowerPages).foldlM (visit T₀ f root) s := by
  have hslots : forEachUserPage T f root s = (List.range 512).foldlM
      (fun s i => if i < 256 then below T₀ f root 3 s i else pure s) s := by
    refine Traced.foldlM_congr I hs ?_ ?_
    · intro s i hs hi
      obtain ⟨n, hn⟩ := isSome_iff_exists.mp ((hI _ hs).live (p := []) rfl)
      rw [hn]
      exact forEachUserPage_slot hI hf hs (mem_range.mp hi) hn
    · intro s i s' hs hi hres
      split at hres
      · exact (below_keeps hf hs (by omega) hres).1
      · rwa [← Option.some.inj hres]
  have hhalves : List.range 512 = List.range 256 ++ (List.range 256).map (256 + ·) := by
    rw [← List.range_add]
  have hupper : ∀ s, ((List.range 256).map (256 + ·)).foldlM
      (fun s i => if i < 256 then below T₀ f root 3 s i else pure s) s = pure s := by
    intro s
    refine foldlM_pure fun s i hi => if_neg ?_
    obtain ⟨j, -, rfl⟩ := mem_map.mp hi
    omega
  have hpages : (List.range lowerPages).foldlM (visit T₀ f root) s
      = (List.range 256).foldlM (fun s i => below T₀ f root 3 s i) s := by
    simp only [below_eq]
    exact foldlM_range_mul
  have hlower : (List.range 256).foldlM
      (fun s i => if i < 256 then below T₀ f root 3 s i else pure s) s
      = (List.range 256).foldlM (fun s i => below T₀ f root 3 s i) s := by
    refine Traced.foldlM_congr (fun _ => True) trivial ?_ fun _ _ _ => trivial
    intro s i _ hi
    exact if_pos (mem_range.mp hi)
  rw [hslots, hhalves, List.foldlM_append, hpages, hlower]
  simp only [hupper, bind_pure]

end Loops

/-! ## In `Option` -/

section Result

variable (T : σ → Store Entry) (f : σ → Entry → VAddr → Traced κ σ)

theorem forEachLevel1_result (add t : Nat) (s : σ) :
    (forEachLevel1 T f add t s).result
      = forEachLevel1 T (fun s e v => (f s e v).result) add t s := by
  refine Traced.result_foldlM (fun s i => ?_) _ s
  simp only [Traced.result_bind, Traced.result_ite]
  rfl

theorem descend_result {s : σ} {t i : Nat} {body : Nat → Traced κ σ} {body' : Nat → Option σ}
    (h : ∀ u, (body u).result = body' u) :
    (liftM (T s t) >>= fun nd => (nd.next i).elim (pure s) body : Traced κ σ).result
      = T s t >>= fun nd => (nd.next i).elim (pure s) body' := by
  rw [Traced.result_bind, Traced.result_lift]
  cases T s t with
  | none => rfl
  | some n =>
    simp only [bind_eq_bind, bind_some]
    cases n.next i with
    | none => rfl
    | some u => exact h u

theorem forEachLevel2_result (add t : Nat) (s : σ) :
    (forEachLevel2 T f add t s).result
      = forEachLevel2 T (fun s e v => (f s e v).result) add t s :=
  Traced.result_foldlM (fun _ _ => descend_result T fun u => forEachLevel1_result T f _ u _) _ s

theorem forEachLevel3_result (add t : Nat) (s : σ) :
    (forEachLevel3 T f add t s).result
      = forEachLevel3 T (fun s e v => (f s e v).result) add t s := by
  refine Traced.result_foldlM (fun s i => ?_) _ s
  by_cases hadd : add + i * 2 ^ 30 ≥ 0xffff00000000
  · simp only [if_pos hadd, Traced.result_bind]
    rfl
  · simp only [if_neg hadd]
    exact descend_result T fun u => forEachLevel2_result T f _ u _

theorem forEachUserPage_result (root : Nat) (s : σ) :
    (forEachUserPage T f root s).result
      = forEachUserPage T (fun s e v => (f s e v).result) root s :=
  Traced.result_foldlM (fun _ _ => descend_result T fun u => forEachLevel3_result T f _ u _) _ s

end Result

/-! ## What is visited -/

section Visited

variable {T T' : Store Entry} {f : σ → Entry → VAddr → Traced κ σ}

/-- A step down to a table, with the tables that are read. -/
theorem descend_congr {s : σ} {t i : Nat} {body body' : Nat → Traced κ σ} (ht : T t = T' t)
    (h : ∀ {n u}, T' t = some n → n.next i = some u → body u = body' u) :
    (liftM (T t) >>= fun nd => (nd.next i).elim (pure s) body : Traced κ σ)
      = liftM (T' t) >>= fun nd => (nd.next i).elim (pure s) body' := by
  rw [ht]
  cases hn : T' t with
  | none => rfl
  | some n =>
    rw [Traced.lift_some_bind, Traced.lift_some_bind]
    cases hu : n.next i with
    | none => rfl
    | some u => exact h hn hu

theorem forEachLevel1_congr {add t : Nat} {s : σ} (ht : T t = T' t) :
    forEachLevel1 (fun _ => T) f add t s = forEachLevel1 (fun _ => T') f add t s := by
  simp only [forEachLevel1, ht]

theorem forEachLevel2_congr {add t : Nat} {s : σ} (ht : T t = T' t)
    (h : ∀ {n i u}, T' t = some n → n.next i = some u → T u = T' u) :
    forEachLevel2 (fun _ => T) f add t s = forEachLevel2 (fun _ => T') f add t s := by
  refine Traced.foldlM_congr (fun _ => True) trivial ?_ fun _ _ _ => trivial
  intro s i _ _
  exact descend_congr ht fun hn hu => forEachLevel1_congr (h hn hu)

variable {w : World} {R : Nat → Prop} {S r : Nat}

/-- A table of the part that all directories share. -/
def SharedTable (w : World) (r t : Nat) : Prop := ∃ q, [511, 511] <+: q ∧ follow w.tables r q = some t

variable (h : Sound w R S) (hr : R r) (hT : ∀ t, ¬ SharedTable w r t → T t = w.tables t)
include h hr hT

/-- A table at the end of a path into the part of the process. -/
theorem agree_of_follow {p : List Nat} {t : Nat} (hp : ¬ [511, 511] <+: p)
    (ht : follow w.tables r p = some t) : T t = w.tables t := by
  refine hT t ?_
  rintro ⟨q, hq, hqt⟩
  rw [h.path_unique hr hr ht hqt] at hp
  exact hp hq

/-- The traversal stays out of the shared part: whatever is there, it does the same. -/
theorem forEachUserPage_congr (s : σ) :
    forEachUserPage (fun _ => T) f r s = forEachUserPage (fun _ => w.tables) f r s := by
  have hagree := @agree_of_follow _ _ _ _ _ h hr hT
  refine Traced.foldlM_congr (fun _ => True) trivial ?_ fun _ _ _ => trivial
  intro s i _ hi
  refine descend_congr (hagree (p := []) (by decide) rfl) fun {n u} hn hu => ?_
  have hpu : follow w.tables r [i] = some u := (follow_snoc (p := []) rfl hn).trans hu
  refine Traced.foldlM_congr (fun _ => True) trivial ?_ fun _ _ _ => trivial
  intro s j _ hj
  have htable : T u = w.tables u := hagree (by simp) hpu
  -- the slots of the upper half are passed over
  by_cases hadd : extendSign (i * 2 ^ 39) + j * 2 ^ 30 ≥ 0xffff00000000
  · simp only [if_pos hadd, htable]
  · simp only [if_neg hadd]
    have hi' : 511 ≠ i := by
      rintro rfl
      have hext : extendSign (511 * 2 ^ 39) = 2 ^ 64 - 2 ^ 39 := by decide
      omega
    refine descend_congr htable fun {n' u'} hn' hu' => ?_
    have hpu' : follow w.tables r [i, j] = some u' := (follow_snoc hpu hn').trans hu'
    refine forEachLevel2_congr (hagree (by simp [hi']) hpu') ?_
    intro n'' k u'' hn'' hu''
    have hpu'' : follow w.tables r [i, j, k] = some u'' :=
      (follow_snoc hpu' hn'').trans hu''
    exact hagree (by simp [hi']) hpu''

end Visited

/-! ## Every valid page, once -/

section Enumerates

variable {w : World} {R : Nat → Prop} {S r : Nat}

/-- The valid pages of the lower half in order: the entry, the address, and the physical address
that the entry has. -/
def userPages (w : World) (r : Nat) : List (Entry × VAddr × Nat) :=
  ((List.range lowerPages).filter fun n => (pageEntry w.tables r n).isValid).map fun n =>
    (pageEntry w.tables r n, userPage n, (pageEntry w.tables r n).base * PAGE_SIZE)

/-- The calls that a traversal should make, `getPage` and `resolve` being the judges. -/
structure Enumerates (w : World) (r : Nat) (calls : List (Entry × VAddr × Nat)) : Prop where
  ascending : calls.Pairwise fun c c' => c.2.1.toNat < c'.2.1.toNat
  page : ∀ {c}, c ∈ calls → Low c.2.1 ∧ c.2.1.toNat % PAGE_SIZE = 0
  entry : ∀ {c}, c ∈ calls → ∃ t i, getEntry w.tables 0 3 r c.2.1 = some (some (t, i)) ∧
    w.entry t i = some c.1
  valid : ∀ {c}, c ∈ calls → c.1.p = true ∨ Deferred c.1
  phys : ∀ {c}, c ∈ calls → resolve w r c.2.1 = some c.2.2
  deferred : ∀ {c}, c ∈ calls → c.1.p = false → c.2.2 = INVALID_PHYS
  all : ∀ {v t i e}, Low v → v.toNat % PAGE_SIZE = 0 →
    getEntry w.tables 0 3 r v = some (some (t, i)) → w.entry t i = some e →
    (e.p = true ∨ Deferred e) → ∃ c ∈ calls, c.2.1 = v

theorem isValid_iff {e : Entry} : e.isValid = true ↔ e.p = true ∨ Deferred e := by
  rw [Entry.isValid, Deferred]
  cases e.p <;> simp

theorem mem_userPages {c : Entry × VAddr × Nat} : c ∈ userPages w r ↔
    ∃ n < lowerPages, (pte w r (userPage n)).isValid = true ∧
      c = (pte w r (userPage n), userPage n, (pte w r (userPage n)).base * PAGE_SIZE) := by
  simp only [userPages, mem_map, List.mem_filter, mem_range]
  constructor
  · rintro ⟨n, ⟨hn, hv⟩, rfl⟩
    exact ⟨n, hn, hv, rfl⟩
  · rintro ⟨n, hn, hv, rfl⟩
    exact ⟨n, ⟨hn, hv⟩, rfl⟩

theorem userPage_of_aligned {v : VAddr} (hv : Low v) (ha : v.toNat % PAGE_SIZE = 0) :
    ∃ n < lowerPages, v = userPage n := by
  have hlt : v.toNat < 2 ^ 47 := hv
  refine ⟨v.toNat / PAGE_SIZE, hv.pageOf_lt, ?_⟩
  apply BitVec.eq_of_toNat_eq
  rw [userPage_toNat]
  · simp only [PAGE_SIZE] at *
    omega
  · simp only [PAGE_SIZE]
    omega

theorem userPages_ascending : (userPages w r).Pairwise fun c c' => c.2.1.toNat < c'.2.1.toNat := by
  rw [userPages, List.pairwise_map]
  refine (List.pairwise_lt_range.filter _).imp_of_mem ?_
  intro m n hm hn hlt
  have hn' : n < 2 ^ 35 := mem_range.mp (List.mem_filter.mp hn).1
  rw [userPage_toNat (by omega), userPage_toNat (by omega)]
  simp only [PAGE_SIZE]
  omega

variable (h : Sound w R S) (hr : R r)
include h hr

/-- The walk to the entry of a page that is valid. -/
theorem getPage_of_valid {v : VAddr} (hv : (pte w r v).isValid = true) :
    ∃ t i, getEntry w.tables 0 3 r v = some (some (t, i)) ∧ w.entry t i = some (pte w r v) := by
  cases ht : follow w.tables r (path v) with
  | none =>
    rw [pte_of_none ht] at hv
    exact absurd hv (by decide)
  | some t =>
    refine ⟨t, index 0 v, ?_, h.entry_eq hr ht⟩
    rw [h.getPage_eq hr, ht]
    rfl

theorem pte_of_getPage {v : VAddr} {t i : Nat} {e : Entry}
    (hg : getEntry w.tables 0 3 r v = some (some (t, i))) (he : w.entry t i = some e) :
    e = pte w r v := by
  rw [h.getPage_eq hr] at hg
  obtain ⟨t', ht, heq⟩ := map_eq_some_iff.mp (Option.some.inj hg)
  cases heq
  rw [h.entry_eq hr ht] at he
  exact (Option.some.inj he).symm

theorem userPages_enumerates : Enumerates w r (userPages w r) := by
  refine ⟨userPages_ascending, fun hc => ?_, fun hc => ?_, fun hc => ?_, fun hc => ?_,
    fun hc hp => ?_, fun {v t i e} hlow ha hg he hvalid => ?_⟩
  · obtain ⟨n, hn, -, rfl⟩ := mem_userPages.mp hc
    have hn' : n < 2 ^ 35 := hn
    show (userPage n).toNat < 2 ^ 47 ∧ (userPage n).toNat % PAGE_SIZE = 0
    rw [userPage_toNat (by omega)]
    simp only [PAGE_SIZE]
    omega
  · obtain ⟨n, -, hv, rfl⟩ := mem_userPages.mp hc
    exact getPage_of_valid h hr hv
  · obtain ⟨n, -, hv, rfl⟩ := mem_userPages.mp hc
    exact isValid_iff.mp hv
  · obtain ⟨n, -, hv, rfl⟩ := mem_userPages.mp hc
    rw [h.resolve_eq hr]
    rcases isValid_iff.mp hv with hp | ⟨hp, hbase⟩
    · rw [if_pos hp]
    · rw [hp, hbase]
      rfl
  · obtain ⟨n, -, hv, rfl⟩ := mem_userPages.mp hc
    rcases isValid_iff.mp hv with hp' | ⟨-, hbase⟩
    · rw [hp] at hp'
      cases hp'
    · rw [hbase]
      rfl
  · obtain ⟨n, hn, rfl⟩ := userPage_of_aligned hlow ha
    obtain rfl := pte_of_getPage h hr hg he
    exact ⟨_, mem_userPages.mpr ⟨n, hn, isValid_iff.mpr hvalid, rfl⟩, rfl⟩

/-- **`forEachUserPage` enumerates user space.** It calls the function for the valid pages of the
lower half, for each once and in order, and whatever is in the part that is shared with the kernel
makes no difference to it. -/
theorem forEachUserPage_enumerates : ∃ calls, Enumerates w r calls ∧
    ∀ {κ σ : Type} (f : σ → Entry → VAddr → Nat → Traced κ σ) (s : σ) (T : Store Entry),
      (∀ t, ¬ SharedTable w r t → T t = w.tables t) →
      forEachUserPage (fun _ => T) (fun s e v => f s e v (e.base * PAGE_SIZE)) r s
        = calls.foldlM (fun s c => f s c.1 c.2.1 c.2.2) s := by
  refine ⟨userPages w r, userPages_enumerates h hr, fun {κ σ} f s T hT => ?_⟩
  have hkeeps : Keeps w.tables w.tables r := ⟨h.live hr, fun _ => id, fun _ => rfl⟩
  rw [forEachUserPage_congr h hr hT, forEachUserPage_eq (I := fun _ => True)
    (fun _ _ => hkeeps) (fun _ _ _ _ _ _ _ => ⟨trivial, fun _ _ => id⟩) trivial]
  rw [userPages, List.foldlM_map, List.foldlM_filter]
  rfl

omit h hr in
/-- A page is mapped, and visited. -/
theorem forEachUserPage_enumerates_smallKernel : ∃ w calls,
    mapPageTo smallKernel 0 0x400000 0x1000 7 = some w ∧ Enumerates w 0 calls ∧
    ∃ c ∈ calls, c.2.1 = 0x400000 := by
  have hrun : (mapPageTo smallKernel 0 0x400000 0x1000 7).map (fun w => (pte w 0 0x400000).p)
      = some true := by decide +kernel
  obtain ⟨w, hm, hp⟩ := map_eq_some_iff.mp hrun
  obtain ⟨-, -, -, -, -, -, -, hsound, -⟩ := mapPageTo_spec smallKernel_sound rfl hm
  obtain ⟨calls, henum, -⟩ := forEachUserPage_enumerates hsound rfl
  have hvalid : (pte w 0 0x400000).p = true ∨ Deferred (pte w 0 0x400000) := .inl hp
  obtain ⟨t, i, hg, he⟩ := getPage_of_valid hsound rfl (isValid_iff.mpr hvalid)
  exact ⟨w, calls, hm, henum, henum.all (by decide) (by decide) hg he hvalid⟩

end Enumerates

end Flix.Paging

import Flix.Paging.CloneRuns

/-!
# Memory from `mmap`

One cursor serves all processes. A call takes the pages from the cursor on, marks them as
deferred in the directory of the task, and moves the cursor behind them. So a new range is
behind all that were given out before, to whomever, and what a child has got from its parent
is behind the cursor too.

The number of pages is a sum of 64 bits. A length that is within a page of the largest is
rounded to nothing, and then the address of the cursor is returned with no page at all. And
nothing stops the cursor at the end of the lower half.
-/

namespace Flix.Paging.Mmap

open Function Radix Runs Traced

variable {C : Type} {S : Nat}

/-! ## `mmap` -/

/-- What `curPtr` is at the start. -/
def firstPtr : Nat := 0xff005000

/-- The loop over the pages. -/
def mmapLoop (r : Nat) : Nat → World → Nat → Option (World × Nat)
  | 0, w, curPtr => some (w, curPtr)
  | n + 1, w, curPtr => do
      let (w, _) ← mapPage w r (BitVec.ofNat 64 curPtr)
        (ATTR_RW + ATTR_PUBLIC + ATTR_DEFER + ATTR_NOEXEC)
      mmapLoop r n w ((curPtr + PAGE_SIZE) % 2 ^ 64)

/-- The number of pages, of 64 bits. -/
def nbPages (length : Nat) : Nat := (length + PAGE_SIZE - 1) % 2 ^ 64 / PAGE_SIZE

/-- `mmap`, with the directory of the task. The result has the cursor, and what is returned. -/
def mmap (w : World) (curPtr r length : Nat) : Option (World × Nat × Nat) :=
  if length = 0 then some (w, curPtr, 0)
  else do
    let (w, cur) ← mmapLoop r (nbPages length) w curPtr
    some (w, cur, curPtr)

/-! ## Runs -/

structure State (C : Type) where
  sys : Processes.State C
  curPtr : Nat
  /-- What a directory has got, itself or from its parent: start and length. -/
  ranges : Nat → List (Nat × Nat)

inductive Act (C : Type) where
  /-- A new directory. -/
  | mapKernel
  | mmap (r length : Nat)
  | clone (r : Nat)
  | handleFault (r : Nat) (v : VAddr)
  | store (r : Nat) (v : VAddr) (x : C)

/-- The directory that was made last. -/
def newest (sys : Processes.State C) : Nat := sys.dirs.headD 0

def step (s : State C) : Act C → Option (State C)
  | .mapKernel => do
      let sys ← (Processes.act s.sys .mapKernel).result
      some { s with sys := sys, ranges := update s.ranges (newest sys) [] }
  | .mmap r length => do
      let (w, cur, start) ← mmap s.sys.world s.curPtr r length
      some ⟨{ s.sys with world := w }, cur, update s.ranges r ((start, length) :: s.ranges r)⟩
  | .clone r => do
      let sys ← (Processes.act s.sys (.clone r)).result
      some { s with sys := sys, ranges := update s.ranges (newest sys) (s.ranges r) }
  | .handleFault r v => do
      let sys ← (Processes.act s.sys (.handleFault r v)).result
      some { s with sys := sys }
  | .store r v x => do
      let sys ← (Processes.act s.sys (.store r v x)).result
      some { s with sys := sys }

/-- Who asks is a task, and lengths are of 64 bits and not zero. -/
def Guard (s : State C) : Act C → Prop
  | .mapKernel => True
  | .mmap r length => r ∈ s.sys.dirs ∧ 0 < length ∧ length < 2 ^ 64
  | .clone r | .handleFault r _ | .store r _ _ => r ∈ s.sys.dirs

/-- The length, in whole pages, has room between the cursor and the end of the lower half. -/
def Room (s : State C) : Act C → Prop
  | .mmap _ length => s.curPtr + (length + 4095) / 4096 * 4096 ≤ 2 ^ 47
  | _ => True

/-- A page as `mmap` maps it: deferred, or present since. -/
def Given (e : Entry) : Prop :=
  (e.p = true ∨ Deferred e) ∧ e.rw = true ∧ e.us = true ∧ e.nx = true

/-- A range is in the lower half, so that its end does not wrap, and on such pages. -/
structure Backed (w : World) (r : Nat) (x : Nat × Nat) : Prop where
  aligned : x.1 % 4096 = 0
  user : x.1 + x.2 ≤ 2 ^ 47
  pages : ∀ j < x.2, Given (pte w r (BitVec.ofNat 64 (x.1 + j)))

def Disjoint (x y : Nat × Nat) : Prop := x.1 + x.2 ≤ y.1 ∨ y.1 + y.2 ≤ x.1

/-- What `mmap` promises: all ranges that a task has are backed, and no two overlap. -/
def Promise (s : State C) : Prop :=
  ∀ r ∈ s.sys.dirs, (∀ x ∈ s.ranges r, Backed s.sys.world r x) ∧ (s.ranges r).Pairwise Disjoint

/-! ## Pages stay given -/

/-- Pages of the lower half that were given stay so, in the directories of `R`. -/
def Keeps (R : Nat → Prop) (w w' : World) : Prop :=
  ∀ {r} (v : VAddr), R r → Low v → Given (pte w r v) → Given (pte w' r v)

section Keeps

variable {R : Nat → Prop} {w w₁ w' : World} {r : Nat}

theorem Keeps.trans (h : Keeps R w w₁) (h' : Keeps R w₁ w') : Keeps R w w' :=
  fun v hr hv hg => h' v hr hv (h v hr hv hg)

theorem Backed.keeps {x : Nat × Nat} (h : Backed w r x) (hr : R r) (hk : Keeps R w w') :
    Backed w' r x := by
  refine ⟨h.aligned, h.user, fun j hj => hk _ hr ?_ (h.pages j hj)⟩
  have huser := h.user
  show (BitVec.ofNat 64 (x.1 + j)).toNat < 2 ^ 47
  rw [BitVec.toNat_ofNat]
  omega

/-- One page. -/
theorem mapPage_given {v : VAddr} {a : Nat} (h : Sound w R S) (hr : R r) (hv : Low v)
    (hm : mapPage w r v (ATTR_RW + ATTR_PUBLIC + ATTR_DEFER + ATTR_NOEXEC) = some (w', a)) :
    Keeps R w w' ∧ ∀ u, Low u → pageOf u = pageOf v → Given (pte w' r u) := by
  obtain ⟨e, he, hview⟩ := mapPage_private h hr hm
  obtain ⟨-, rfl⟩ := he hv.not_shared
  have ha : a = INVALID_PHYS := by
    rcases mapPage_cases hm with ⟨-, ha, -⟩ | ⟨hno, -⟩
    · exact ha
    · exact absurd hno (by decide)
  have hgiven : Given (setAttributes (ATTR_RW + ATTR_PUBLIC + ATTR_DEFER + ATTR_NOEXEC)
      ((pte w r v).present a)) := by
    subst ha
    exact ⟨.inr ⟨rfl, rfl⟩, Bool.or_true _, Bool.or_true _, Bool.or_true _⟩
  refine ⟨fun {r'} u hr' hu hg => ?_, fun u hu hpage => ?_⟩
  · rw [hview u hr' hu.not_shared]
    split
    · exact hgiven
    · exact hg
  · have hslot : slotOf r u = slotOf r v :=
      (Canonical.slotOf_eq_iff (.inl hu) (.inl hv)).mpr hpage
    rw [hview u hr hu.not_shared, if_pos hslot]
    exact hgiven

theorem handleFault_keeps {v : VAddr} {b : Bool} (h : Sound w R S) (hr : R r)
    (hm : handleFault w r v = some (w', b)) : Keeps R w w' := by
  intro r' u hr' hu hg
  rcases handleFault_spec h hr hm with ⟨-, rfl, -⟩ | ⟨-, -, frames, f, -, hwrite, -, -⟩
  · exact hg
  · rw [hwrite.view u hr']
    split
    · rename_i hs
      have heq : pte w r' u = pte w r v := h.pte_of_slot hr' hr hs
      rw [heq] at hg
      exact ⟨.inl rfl, hg.2⟩
    · exact hg

theorem Keeps.mono {R' : Nat → Prop} (h : Keeps R w w') (hR : ∀ d, R' d → R d) : Keeps R' w w' :=
  fun v hr hv hg => h v (hR _ hr) hv hg

end Keeps

section Clone

variable {R : Nat → Prop} {s s' : World × (Nat → C)} {pd i : Nat} {newPd : PageDirectory}

/-- A clone leaves the lower halves of all directories alone but for the new one. -/
theorem clone_others (h : Sound s.1 R S) (hpd : R pd) (hm : clone s pd = some (s', newPd, i))
    {r : Nat} {v : VAddr} (hr : R r) (hv : Low v) : pte s'.1 r v = pte s.1 r v := by
  obtain ⟨⟨w₁, pd1⟩, hkernel, hm⟩ := of_bind hm
  obtain ⟨⟨w2, stack, phys⟩, hstack, hm⟩ := of_bind hm
  obtain ⟨s3, hloop, hm⟩ := of_bind hm
  cases hm
  have hmap := mapKernel_spec h hkernel
  have hst := stackKmalloc_spec hmap.sound hstack
  have hne : ∀ {d}, R d → d ≠ newPd.root := by
    rintro d hd rfl
    have hlive := h.rootLive hd
    rw [hmap.new] at hlive
    cases hlive
  -- what the copy of a page keeps
  let I (_ : Nat) (x : World × (Nat → C)) : Prop :=
    Steady (fun d => R d ∨ d = newPd.root) S w2 x.1 ∧
      ∀ d m, R d → m < lowerPages → pte x.1 d (userPage m) = pte w2 d (userPage m)
  have hpages : I lowerPages s' := by
    rw [forEach_clonePage_eq (hne hpd) hst.steady.sound (.inl hpd) (.inr rfl)] at hloop
    have hspec : Traced.Spec False (fun _ => True) (I lowerPages)
        ((List.range lowerPages).foldlM (visit w2.tables (clonePage' pd newPd.root) pd)
          (w2, s.2)) := by
      refine Traced.Spec.foldlM_range I ⟨.refl hst.steady.sound,
        fun _ _ _ _ => rfl⟩ ?_
      intro x n hn hI
      rw [visit]
      split
      · refine .lift (fun hres => ?_) fun h => h.elim
        obtain ⟨a, hp⟩ := clonePage_spec hI.1.sound (.inl hpd) (.inr rfl) (lower_not_shared hn)
          (parent_ne_child (hne hpd) hn _) (userPage_ne_buffer hn pd pd)
          (parent_ne_child (hne hpd) hn _) hres
        refine ⟨hI.1.trans hp.steady, fun d m hd hm => ?_⟩
        rw [hp.view _ (.inl hd) (lower_not_shared hm) (userPage_ne_buffer hm d pd),
          if_neg (parent_ne_child (hne hd) hn _), hI.2 d m hd hm]
      · exact .pure hI
    exact hspec.post hloop
  rw [hv.pte_eq, hv.pte_eq, hpages.2 r _ hr hv.pageOf_lt, ← hv.pte_eq, ← hv.pte_eq,
    hst.view v (.inl hr) hv.not_shared, hmap.grown.steps.pte_private hr hv.not_shared]

theorem Copy.given {e e' : Entry} (h : Copy s s' e e') (hg : Given e) : Given e' := by
  obtain ⟨hvalid, hrw, hus, hnx⟩ := hg
  rcases h with ⟨he, -⟩ | ⟨he, rfl⟩ | ⟨he, -, -, rfl, -⟩
  · rw [Entry.isValid, Bool.or_eq_false_iff] at he
    rcases hvalid with hp | hd
    · rw [he.1] at hp
      cases hp
    · rw [hd.2] at he
      exact absurd he.2 (by decide)
  · obtain ⟨p, rw, us, nx, base⟩ := e
    obtain ⟨rfl, rfl⟩ : p = false ∧ base = INVALID_PAGE := he
    obtain ⟨rfl, rfl, rfl⟩ : rw = true ∧ us = true ∧ nx = true := ⟨hrw, hus, hnx⟩
    exact ⟨.inr ⟨rfl, rfl⟩, rfl, rfl, rfl⟩
  · obtain ⟨p, rw, us, nx, base⟩ := e
    obtain rfl : p = true := he
    obtain ⟨rfl, rfl, rfl⟩ : rw = true ∧ us = true ∧ nx = true := ⟨hrw, hus, hnx⟩
    have hattr : (Entry.mk true true true true base).getAttributes = 7 := rfl
    rw [hattr]
    exact ⟨.inl rfl, rfl, rfl, rfl⟩

theorem clone_given (h : Sound s.1 R S) (ho : Owned R s.1) (hpd : R pd)
    (hm : clone s pd = some (s', newPd, i)) {v : VAddr} (hv : Low v)
    (hg : Given (pte s.1 pd v)) : Given (pte s'.1 newPd.root v) := by
  obtain ⟨⟨s1, -, hcl, hparent, -⟩, -⟩ := clone_spec h ho hpd hm
  have hcopy := hcl.child hv.pageOf_lt hv.pageOf_lt
  rw [← hv.pte_eq, ← hv.pte_eq, hparent v hpd hv.not_shared] at hcopy
  exact Copy.given hcopy hg

end Clone

/-! ## The loop -/

section Loop

variable {sys : Processes.State C} {w w' : World} {r : Nat}

/-- The pages behind the cursor, one after the other. -/
theorem mmapLoop_spec (hr : r ∈ sys.dirs) : ∀ {n cur cur' : Nat} {w : World},
    Processes.Inv S { sys with world := w } → cur % 4096 = 0 → cur + n * 4096 ≤ 2 ^ 47 →
      mmapLoop r n w cur = some (w', cur') →
      Processes.Inv S { sys with world := w' } ∧ cur' = cur + n * 4096 ∧
        Keeps (· ∈ sys.dirs) w w' ∧
        ∀ u : VAddr, cur ≤ u.toNat → u.toNat < cur + n * 4096 → Given (pte w' r u)
  | 0, cur, cur', w, hinv, _, _, hm => by
    obtain ⟨rfl, rfl⟩ := Prod.mk.inj (Option.some.inj hm)
    refine ⟨hinv, by omega, fun _ _ _ hg => hg, fun u hle hlt => ?_⟩
    omega
  | n + 1, cur, cur', w, hinv, haligned, hroom, hm => by
    rw [mmapLoop] at hm
    obtain ⟨⟨w₁, a⟩, hpage, hm⟩ := of_bind hm
    have hsize : PAGE_SIZE = 4096 := rfl
    have hnat : (BitVec.ofNat 64 cur).toNat = cur := by
      rw [BitVec.toNat_ofNat]
      omega
    have hlow : Low (BitVec.ofNat 64 cur) := by
      show (BitVec.ofNat 64 cur).toNat < 2 ^ 47
      omega
    have hdir : Processes.State.isDir { sys with world := w } r := .inr hr
    have hinv1 : Processes.Inv S { sys with world := w₁ } :=
      hinv.steady (mapPage_steady hinv.sound hdir hpage) (hinv.owned.mapPage hinv.sound hdir hpage)
    obtain ⟨hkeep, hnew⟩ := mapPage_given hinv.sound hdir hlow hpage
    obtain ⟨hinv', hcur, hkeep', hrest⟩ := mmapLoop_spec hr hinv1 (by omega) (by omega) hm
    have hkeep1 : Keeps (· ∈ sys.dirs) w w₁ := hkeep.mono fun d hd => .inr hd
    refine ⟨hinv', by omega, Keeps.trans hkeep1 hkeep', fun u hle hlt => ?_⟩
    by_cases hin : u.toNat < cur + 4096
    · have hu : Low u := by
        show u.toNat < 2 ^ 47
        omega
      refine hkeep' u hr hu (hnew u hu ?_)
      show u.toNat / 4096 = (BitVec.ofNat 64 cur).toNat / 4096
      omega
    · exact hrest u (by omega) (by omega)

/-- A length that has room is rounded as it should be. -/
theorem nbPages_eq {length : Nat} (h : length ≤ 2 ^ 47) : nbPages length = (length + 4095) / 4096 := by
  unfold nbPages PAGE_SIZE
  omega

end Loop

/-! ## The invariant -/

structure Inv (S : Nat) (s : State C) : Prop where
  sys : Processes.Inv S s.sys
  aligned : s.curPtr % 4096 = 0
  /-- All that was given out is behind the cursor. -/
  below : ∀ r ∈ s.sys.dirs, ∀ x ∈ s.ranges r, x.1 + x.2 ≤ s.curPtr
  promise : Promise s

section Steps

variable {s s' : State C}

theorem Inv.keep {sys : Processes.State C} (h : Inv S s) (hsys : Processes.Inv S sys)
    (hdirs : sys.dirs = s.sys.dirs) (hk : Keeps (· ∈ s.sys.dirs) s.sys.world sys.world) :
    Inv S { s with sys := sys } := by
  refine ⟨hsys, h.aligned, fun r hr => h.below r (hdirs ▸ hr), fun r hr => ?_⟩
  have hr' : r ∈ s.sys.dirs := hdirs ▸ hr
  obtain ⟨hback, hpair⟩ := h.promise r hr'
  exact ⟨fun x hx => (hback x hx).keeps hr' hk, hpair⟩

theorem Inv.add {sys : Processes.State C} {c : Nat} {xs : List (Nat × Nat)} (h : Inv S s)
    (hsys : Processes.Inv S sys) (hdirs : sys.dirs = c :: s.sys.dirs)
    (hk : Keeps (· ∈ s.sys.dirs) s.sys.world sys.world)
    (hbelow : ∀ x ∈ xs, x.1 + x.2 ≤ s.curPtr) (hback : ∀ x ∈ xs, Backed sys.world c x)
    (hpair : xs.Pairwise Disjoint) :
    Inv S { s with sys := sys, ranges := update s.ranges (newest sys) xs } := by
  have hnew : newest sys = c := by
    rw [newest, hdirs]
    rfl
  have hc : c ∉ s.sys.dirs := by
    have hnodup := hsys.nodup
    rw [hdirs] at hnodup
    exact (nodup_cons.mp hnodup).1
  have hold : ∀ r ∈ s.sys.dirs, update s.ranges c xs r = s.ranges r := by
    intro r hr
    refine update_of_ne ?_ ..
    rintro rfl
    exact hc hr
  rw [hnew]
  refine ⟨hsys, h.aligned, fun r hr => ?_, fun r hr => ?_⟩
  · rcases mem_cons.mp (hdirs ▸ hr) with rfl | hr
    · show ∀ x ∈ update s.ranges r xs r, _
      rw [update_self]
      exact hbelow
    · show ∀ x ∈ update s.ranges c xs r, _
      rw [hold r hr]
      exact h.below r hr
  · rcases mem_cons.mp (hdirs ▸ hr) with rfl | hr
    · show (∀ x ∈ update s.ranges r xs r, _) ∧ (update s.ranges r xs r).Pairwise _
      rw [update_self]
      exact ⟨hback, hpair⟩
    · show (∀ x ∈ update s.ranges c xs r, _) ∧ (update s.ranges c xs r).Pairwise _
      rw [hold r hr]
      obtain ⟨hback, hpair⟩ := h.promise r hr
      exact ⟨fun x hx => (hback x hx).keeps hr hk, hpair⟩

variable {r : Nat}

theorem step_mmap {w : World} {length cur start : Nat}
    (h : Mmap.mmap s.sys.world s.curPtr r length = some (w, cur, start)) :
    step s (.mmap r length) = some ⟨{ s.sys with world := w }, cur,
      update s.ranges r ((start, length) :: s.ranges r)⟩ := by
  rw [step, h]
  rfl

/-- `mmap` keeps its promise when there is room. -/
theorem Inv.mmap {length : Nat} (h : Inv S s) (hg : Guard s (.mmap r length))
    (hroom : Room s (.mmap r length)) (hs : step s (.mmap r length) = some s') : Inv S s' := by
  obtain ⟨hr, hpos, -⟩ := hg
  have hroom' : s.curPtr + (length + 4095) / 4096 * 4096 ≤ 2 ^ 47 := hroom
  obtain ⟨⟨w, cur, start⟩, hmap, hs⟩ := of_bind hs
  cases hs
  rw [Mmap.mmap, if_neg (by omega)] at hmap
  obtain ⟨⟨w₁, cur1⟩, hloop, hmap⟩ := of_bind hmap
  obtain ⟨rfl, hpair⟩ := Prod.mk.inj (Option.some.inj hmap)
  obtain ⟨rfl, rfl⟩ := Prod.mk.inj hpair
  rw [nbPages_eq (by omega)] at hloop
  obtain ⟨hinv, hcur, hkeep, hpages⟩ := mmapLoop_spec hr h.sys h.aligned hroom' hloop
  have hnew : Backed w₁ r (s.curPtr, length) := by
    refine ⟨h.aligned, by show s.curPtr + length ≤ 2 ^ 47; omega, fun j hj => ?_⟩
    have hnat : (BitVec.ofNat 64 (s.curPtr + j)).toNat = s.curPtr + j := by
      rw [BitVec.toNat_ofNat]
      omega
    exact hpages (BitVec.ofNat 64 (s.curPtr + j)) (by omega) (by omega)
  have hold : ∀ d ∈ s.sys.dirs, ∀ x ∈ s.ranges d, Backed w₁ d x := fun d hd x hx =>
    ((h.promise d hd).1 x hx).keeps hd hkeep
  refine ⟨hinv, ?_, fun d hd x hx => ?_, fun d hd => ?_⟩
  · have haligned := h.aligned
    show cur1 % 4096 = 0
    omega
  · show x.1 + x.2 ≤ cur1
    by_cases hdr : d = r
    · subst hdr
      have hx' : x ∈ update s.ranges d ((s.curPtr, length) :: s.ranges d) d := hx
      rw [update_self] at hx'
      rcases mem_cons.mp hx' with rfl | hx'
      · show s.curPtr + length ≤ cur1
        omega
      · have := h.below d hd x hx'
        omega
    · have hx' : x ∈ update s.ranges r ((s.curPtr, length) :: s.ranges r) d := hx
      rw [update_of_ne hdr] at hx'
      have := h.below d hd x hx'
      omega
  · by_cases hdr : d = r
    · subst hdr
      show (∀ x ∈ update s.ranges d _ d, _) ∧ (update s.ranges d _ d).Pairwise _
      rw [update_self]
      refine ⟨List.forall_mem_cons.mpr ⟨hnew, hold d hd⟩,
        List.pairwise_cons.mpr ⟨fun x hx => ?_, (h.promise d hd).2⟩⟩
      exact .inr (h.below d hd x hx)
    · show (∀ x ∈ update s.ranges r _ d, _) ∧ (update s.ranges r _ d).Pairwise _
      rw [update_of_ne hdr]
      exact ⟨hold d hd, (h.promise d hd).2⟩

theorem Inv.mapKernel (h : Inv S s) (hs : step s .mapKernel = some s') : Inv S s' := by
  obtain ⟨sys, hsys, hs⟩ := of_bind hs
  cases hs
  have hinv : Processes.Inv S sys := (Processes.act_spec (a := .mapKernel) h.sys trivial).post hsys
  unfold Processes.act at hsys
  simp only [result_bind] at hsys
  obtain ⟨⟨w, pd⟩, hkernel, hsys⟩ := of_bind hsys
  cases hsys
  have hmap := mapKernel_spec h.sys.sound hkernel
  refine h.add hinv rfl (fun v hr hv hg => ?_) (fun x hx => absurd hx not_mem_nil)
    (fun x hx => absurd hx not_mem_nil) List.Pairwise.nil
  rw [hmap.grown.steps.pte_private (.inr hr) hv.not_shared]
  exact hg

theorem Inv.clone (h : Inv S s) (hr : r ∈ s.sys.dirs)
    (hs : step s (.clone r) = some s') : Inv S s' := by
  obtain ⟨sys, hsys, hs⟩ := of_bind hs
  cases hs
  have hinv : Processes.Inv S sys := (Processes.act_spec (a := .clone r) h.sys hr).post hsys
  unfold Processes.act at hsys
  simp only [result_bind] at hsys
  obtain ⟨⟨⟨w, mem⟩, pd, i⟩, hclone, hsys⟩ := of_bind hsys
  cases hsys
  obtain ⟨hback, hpair⟩ := h.promise r hr
  refine h.add hinv rfl (fun v hd hv hg => ?_) (h.below r hr) (fun x hx => ?_) hpair
  · have hsame := clone_others h.sys.sound (.inr hr) hclone (.inr hd) hv
    exact hsame ▸ hg
  · have hx' := hback x hx
    refine ⟨hx'.aligned, hx'.user, fun j hj => ?_⟩
    have huser := hx'.user
    have hlow : Low (BitVec.ofNat 64 (x.1 + j)) := by
      show (BitVec.ofNat 64 (x.1 + j)).toNat < 2 ^ 47
      rw [BitVec.toNat_ofNat]
      omega
    exact clone_given h.sys.sound h.sys.owned (.inr hr) hclone hlow (hx'.pages j hj)

theorem Inv.handleFault {v : VAddr} (h : Inv S s) (hr : r ∈ s.sys.dirs)
    (hs : step s (.handleFault r v) = some s') : Inv S s' := by
  obtain ⟨sys, hsys, hs⟩ := of_bind hs
  cases hs
  have hinv : Processes.Inv S sys := (Processes.act_spec (a := .handleFault r v) h.sys (.inr hr)).post hsys
  unfold Processes.act at hsys
  simp only [result_bind] at hsys
  obtain ⟨⟨w, b⟩, hfault, hsys⟩ := of_bind hsys
  cases hsys
  have hkeep : Keeps s.sys.isDir s.sys.world w := handleFault_keeps h.sys.sound (.inr hr) hfault
  exact h.keep hinv rfl (hkeep.mono fun d hd => .inr hd)

theorem Inv.store {v : VAddr} {x : C} (h : Inv S s) (hr : r ∈ s.sys.dirs)
    (hs : step s (.store r v x) = some s') : Inv S s' := by
  obtain ⟨sys, hsys, hs⟩ := of_bind hs
  cases hs
  have hinv : Processes.Inv S sys := (Processes.act_spec (a := .store r v x) h.sys (.inr hr)).post hsys
  unfold Processes.act at hsys
  simp only [result_bind] at hsys
  obtain ⟨a, -, hsys⟩ := of_bind hsys
  obtain ⟨a', -, hsys⟩ := of_bind hsys
  cases hsys
  exact h.keep hinv rfl fun v hd _ hg => hg

theorem Inv.step {a : Act C} (h : Inv S s) (hg : Guard s a) (hroom : Room s a)
    (hs : step s a = some s') : Inv S s' := by
  cases a with
  | mapKernel => exact h.mapKernel hs
  | mmap r length => exact h.mmap hg hroom hs
  | clone r => exact h.clone hg hs
  | handleFault r v => exact h.handleFault hg hs
  | store r v x => exact h.store hg hs

end Steps

/-! ## The result -/

/-- The state after booting: nobody has called `mmap`. -/
structure Start (S : Nat) (s : State C) : Prop where
  sys : Processes.Inv S s.sys
  curPtr : s.curPtr = firstPtr
  ranges : ∀ r, s.ranges r = []

theorem Start.inv {s : State C} (h : Start S s) : Inv S s := by
  refine ⟨h.sys, by rw [h.curPtr]; decide, fun r _ x hx => ?_, fun r _ => ?_⟩
  · rw [h.ranges] at hx
    cases hx
  · rw [h.ranges]
    exact ⟨fun x hx => absurd hx not_mem_nil, List.Pairwise.nil⟩

/-- The small kernel. -/
def boot (C : Type) (mem : Nat → C) : State C := ⟨Processes.boot mem, firstPtr, fun _ => []⟩

theorem boot_start (mem : Nat → C) : Start 2 (boot C mem) :=
  ⟨(Processes.boot_good mem).toInv, rfl, fun _ => rfl⟩

/-- A task on the small kernel, and memory for its pages. -/
theorem exists_task (mem : Nat → C) : ∃ s r, s.sys.dirs = [r] ∧ s.curPtr = firstPtr ∧
    s.ranges r = [] ∧
    Stock (fun _ _ => True) s.sys.isDir 2 Pool.blockLimit 78 s.sys.world ∧
    14 ≤ s.sys.world.heap.pool.length ∧ s.sys.world.heap.pool.length ≤ 16 ∧
    (pte s.sys.world r (BitVec.ofNat 64 firstPtr)).p = false ∧
    Reach step (fun s a => Guard s a ∧ Room s a) (boot C mem) s := by
  obtain ⟨w, pd, hk, hst', hlow, hhigh⟩ :=
    (Pool.smallKernel_stock.mono (by decide : 80 ≤ 102)).mapKernel (by decide)
  have hmap := mapKernel_spec smallKernel_sound hk
  have hpool : smallKernel.heap.pool.length = 16 := rfl
  have hkernel : w.kernel.root = 0 := by rw [hmap.ext.kernel]; rfl
  have hstep : step (boot C mem) .mapKernel = some ⟨⟨w, mem, [pd.root], []⟩, firstPtr,
      update (fun _ => []) pd.root []⟩ := by
    rw [step, boot, Processes.act_mapKernel (s := Processes.boot mem) hk]
    rfl
  have hdir : Processes.State.isDir ⟨w, mem, [pd.root], []⟩ = fun d => d = 0 ∨ d = pd.root := by
    funext d
    rw [Processes.State.isDir, hkernel, mem_singleton]
  have hnone : update (fun _ => ([] : List (Nat × Nat))) pd.root [] pd.root = [] := update_self ..
  refine ⟨_, pd.root, rfl, rfl, hnone, by rw [hdir]; exact hst', by show 14 ≤ w.heap.pool.length; omega,
    by show w.heap.pool.length ≤ 16; omega, ?_,
    .tail (a := .mapKernel) .start ⟨trivial, trivial⟩ hstep⟩
  rw [hmap.view]
  rfl

/-- **Fresh ranges.** In every run in which each length has room behind the cursor, all that the
tasks have got from `mmap`, themselves or with a clone, is there for them, and nothing was given
to anybody twice. -/
theorem mmap_ranges {s₀ s : State C} (h₀ : Start S s₀)
    (h : Reach step (fun s a => Guard s a ∧ Room s a) s₀ s) : Promise s := by
  have hinv : Inv S s := h.invariant h₀.inv fun _ _ _ hI hg hs => hI.step hg.1 hg.2 hs
  exact hinv.promise

/-- A task asks for one byte. -/
theorem mmap_ranges_byte : ∃ s : State Unit, ∃ r ∈ s.sys.dirs, s.ranges r = [(firstPtr, 1)] ∧
    Promise s := by
  obtain ⟨s, r, hdirs, hcur, hnone, hst, hlow, hhigh, hfree, hreach⟩ := exists_task fun _ => ()
  have hr : r ∈ s.sys.dirs := hdirs ▸ List.mem_singleton_self r
  have hfirst : Low (BitVec.ofNat 64 firstPtr) := by decide
  obtain ⟨w, a, hpage, -⟩ := mapPage_total (c := 60) (hst.mono (by omega)) ⟨by omega, hhigh⟩
    (.inr hr) (show Accepts (BitVec.ofNat 64 firstPtr)
      (ATTR_RW + ATTR_PUBLIC + ATTR_DEFER + ATTR_NOEXEC) from ⟨by decide, by decide, by decide⟩)
    hfree (Apart.of_private le_rfl hfirst.not_shared)
  have hone : nbPages 1 = 1 := by decide
  have hmap : mmap s.sys.world s.curPtr r 1
      = some (w, (firstPtr + PAGE_SIZE) % 2 ^ 64, firstPtr) := by
    rw [mmap, if_neg Nat.one_ne_zero, hone, hcur, mmapLoop, hpage]
    rfl
  have hroom : Room s (.mmap r 1) := by
    show s.curPtr + (1 + 4095) / 4096 * 4096 ≤ 2 ^ 47
    rw [hcur]
    decide
  have hguard : Guard s (.mmap r 1) := ⟨hr, by decide, by decide⟩
  have hranges : update s.ranges r ((firstPtr, 1) :: s.ranges r) r = [(firstPtr, 1)] := by
    rw [update_self, hnone]
  have hreach' := hreach.tail (a := .mmap r 1) ⟨hguard, hroom⟩ (step_mmap hmap)
  exact ⟨⟨{ s.sys with world := w }, (firstPtr + PAGE_SIZE) % 2 ^ 64,
    update s.ranges r ((firstPtr, 1) :: s.ranges r)⟩, r, hr, hranges,
    mmap_ranges (boot_start fun _ => ()) hreach'⟩

/-- **A length near the end** is given no page: the cursor is returned, and not moved. -/
theorem mmap_of_nothing : ∃ s : State Unit, ∃ r, r ∈ s.sys.dirs ∧
    Reach step Guard (boot Unit fun _ => ()) s ∧ s.curPtr = firstPtr ∧
      s.ranges r = [(firstPtr, 2 ^ 64 - 1)] ∧ ¬ Promise s := by
  obtain ⟨s, r, hdirs, hcur, hnone, -, -, -, -, hreach⟩ := exists_task fun _ => ()
  have hr : r ∈ s.sys.dirs := hdirs ▸ List.mem_singleton_self r
  have hzero : nbPages (2 ^ 64 - 1) = 0 := by decide
  have hmap : mmap s.sys.world s.curPtr r (2 ^ 64 - 1) = some (s.sys.world, firstPtr, firstPtr) := by
    rw [mmap, if_neg (by decide), hzero, hcur, mmapLoop]
    rfl
  have hreach' : Reach step Guard (boot Unit fun _ => ()) s := hreach.mono fun _ _ hg => hg.1
  have hranges : update s.ranges r ((firstPtr, 2 ^ 64 - 1) :: s.ranges r) r
      = [(firstPtr, 2 ^ 64 - 1)] := by
    rw [update_self, hnone]
  have hguard : Guard s (.mmap r (2 ^ 64 - 1)) := ⟨hr, by decide, by decide⟩
  refine ⟨⟨s.sys, firstPtr, update s.ranges r ((firstPtr, 2 ^ 64 - 1) :: s.ranges r)⟩, r, hr,
    hreach'.tail (a := .mmap r (2 ^ 64 - 1)) hguard (step_mmap hmap), rfl, hranges,
    fun hpromise => ?_⟩
  have hall : ∀ x ∈ update s.ranges r ((firstPtr, 2 ^ 64 - 1) :: s.ranges r) r,
      Backed s.sys.world r x := (hpromise r hr).1
  rw [hranges] at hall
  exact absurd (hall _ (List.mem_singleton_self _)).user (by decide)

end Flix.Paging.Mmap

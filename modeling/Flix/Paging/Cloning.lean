import Flix.Paging.Frames
import Flix.Paging.UserPages

/-!
# `clone`

A clone gets a directory of its own, and for every page of the lower half of its
parent a page with the same attributes. A page that is present is copied, through a
buffer in the parent's own directory to which the frame of the new page is mapped for
the time of the copy.

What happens to the kernel's part of the address space on the way is of no concern
here: it is the business of the page heap and of the heap of stacks. What matters is
that none of it touches a page that is private to a directory.
-/

namespace Flix.Paging

open Function Radix

variable {w w₁ w' : World} {R : Nat → Prop} {S : Nat} {r : Nat} {v : VAddr} {attr : Nat}

/-! ## Private pages -/

/-- The pages of the page heap are in the part that is shared. -/
theorem heapPage_shared {b n : Nat} (hn : n < 2) (h : 0xffffffff00000000 ≤ (heapPage b n).toNat) :
    Shared (heapPage b n) := by
  have hbase : pageHeapBase.toNat = 0xffffffffe0000000 := rfl
  refine Sharing.shared_of_le ?_
  simp only [heapPage, pageToPtr, BitVec.toNat_add, BitVec.toNat_ofNat] at h ⊢
  omega

/-- A private page and a shared one never have the same slot. -/
theorem slotOf_ne_of_shared {r' : Nat} {y : VAddr} (hv : ¬ Shared v) (hy : Shared y) :
    slotOf r v ≠ slotOf r' y := by
  intro hs
  have howner := congrArg (fun s => s.1.1) hs
  simp only [slotOf_owner, if_neg hv, if_pos hy] at howner
  cases howner

theorem not_heapPage (hv : ¬ Shared v) : ¬ HeapPage w r v := by
  rintro ⟨b, n, -, hn, hy, hs⟩
  exact slotOf_ne_of_shared hv (heapPage_shared hn hy) hs

/-- The page heap leaves private pages alone. -/
theorem HeapSteps.pte_private (h : HeapSteps R w w') (hr : R r) (hv : ¬ Shared v) :
    pte w' r v = pte w r v := h.pte_eq hr (not_heapPage hv)

/-- What `mapPageTo` does to private pages: one entry is written, at most. -/
theorem mapPageTo_private {paddr : Nat} (h : Sound w R S) (hr : R r)
    (hm : mapPageTo w r v paddr attr = some w') :
    ∃ e, (¬ Shared v → (pte w r v).p = false ∧
        e = setAttributes attr ((pte w r v).present paddr)) ∧
      ∀ {r'} (v' : VAddr), R r' → ¬ Shared v' →
        pte w' r' v' = if slotOf r' v' = slotOf r v then e else pte w r' v' := by
  obtain ⟨e, he, hview⟩ := mapPageTo_view h hr hm
  exact ⟨e, fun hv => he (not_heapPage hv), fun v' hr' hv' => hview v' hr' (not_heapPage hv')⟩

variable {a i : Nat}

theorem mapPage_private (h : Sound w R S) (hr : R r) (hm : mapPage w r v attr = some (w', a)) :
    ∃ e, (¬ Shared v → (pte w r v).p = false ∧
        e = setAttributes attr ((pte w r v).present a)) ∧
      ∀ {r'} (v' : VAddr), R r' → ¬ Shared v' →
        pte w' r' v' = if slotOf r' v' = slotOf r v then e else pte w r' v' := by
  obtain ⟨e, he, hview⟩ := mapPage_view h hr hm
  exact ⟨e, fun hv => he (not_heapPage hv), fun v' hr' hv' => hview v' hr' (not_heapPage hv')⟩

/-! ## Stacks -/

theorem stackPages_shared (hv : v ∈ stackPages i) (h : 0xffffffff00000000 ≤ v.toNat) :
    Shared v := by
  obtain ⟨n, hn, rfl⟩ := mem_map.mp hv
  have hn := mem_range.mp hn
  have hbase : stackPageHeapBase.toNat = 0xffffffffe8000000 := rfl
  refine Sharing.shared_of_le ?_
  simp only [stackToPtr, BitVec.toNat_add, BitVec.toNat_ofNat] at h ⊢
  omega

theorem stackToPtr_mem (i : Nat) : stackToPtr i ∈ stackPages i :=
  mem_map.mpr ⟨0, by decide, BitVec.add_zero _⟩

/-- A private attribute needs an address in the kernel's part. -/
theorem mapPage_high (h : Sound w R S) (hr : R r) (hattr : attr.testBit 1 = false)
    (hm : mapPage w r v attr = some (w', a)) : 0xffffffff00000000 ≤ v.toNat := by
  have hhigh : ∀ {x : World} {p : Nat}, Sound x R S → mapPageTo x r v p attr = some w' →
      0xffffffff00000000 ≤ v.toNat := fun hx hto =>
    not_lt.mp fun hc => (mapPageTo_spec hx hr hto).1.user ⟨hc, hattr⟩
  rcases mapPage_cases hm with ⟨-, rfl, hto⟩ | ⟨-, frames, f, -, -, rfl, hto⟩
  · exact hhigh h hto
  · exact hhigh (h.withFrames frames) hto

/-- What mapping pages of the kernel's leaves alone. -/
structure KernelOnly (R : Nat → Prop) (S : Nat) (w w' : World) : Prop where
  steady : Steady R S w w'
  owned : Owned R w → Owned R w'
  view : ∀ {r} (v : VAddr), R r → ¬ Shared v → pte w' r v = pte w r v

theorem KernelOnly.trans (h : KernelOnly R S w w₁) (h' : KernelOnly R S w₁ w') :
    KernelOnly R S w w' :=
  ⟨h.steady.trans h'.steady, fun ho => h'.owned (h.owned ho),
    fun v hr hv => (h'.view v hr hv).trans (h.view v hr hv)⟩

theorem mapStackPage_spec (h : Sound w R S) (hv : 0xffffffff00000000 ≤ v.toNat → Shared v)
    (hm : mapStackPage w v = some (w', a)) : KernelOnly R S w w' := by
  have hy := hv (mapPage_high h h.kernel rfl hm)
  obtain ⟨e, -, hview⟩ := mapPage_private h h.kernel hm
  refine ⟨mapPage_steady h h.kernel hm, fun ho => ho.mapPage h h.kernel hm, ?_⟩
  intro r v hr hv
  rw [hview v hr hv, if_neg (slotOf_ne_of_shared hv hy)]

theorem mapStackPages_spec {l : List VAddr} (h : Sound w R S)
    (hl : ∀ v ∈ l, 0xffffffff00000000 ≤ v.toNat → Shared v)
    (hm : l.foldlM (fun w v => (mapStackPage w v).map Prod.fst) w = some w') :
    KernelOnly R S w w' := by
  induction l generalizing w with
  | nil =>
    cases hm
    exact ⟨.refl h, id, fun _ _ _ => rfl⟩
  | cons y l ih =>
    obtain ⟨w₁, hbody, hm⟩ := of_bind hm
    obtain ⟨⟨w2, a⟩, hpage, rfl⟩ := map_eq_some_iff.mp hbody
    have hone := mapStackPage_spec h (hl y mem_cons_self) hpage
    exact hone.trans (ih hone.steady.sound (fun v hv => hl v (mem_cons_of_mem _ hv)) hm)

/-- The heap of the stacks itself is of no concern. -/
theorem KernelOnly.withStackHeap (h : Sound w R S) (stackHeap : StackPageHeap) :
    KernelOnly R S w { w with stackHeap := stackHeap } :=
  ⟨⟨h.of_tables rfl rfl rfl fun _ hx => hx, .of_tables rfl rfl rfl,
    fun hx => { hx with }, le_rfl, id, le_rfl⟩,
    fun ho => ho.of_view (fun _ hr _ => ⟨_, hr, rfl, rfl⟩) rfl, fun _ _ _ => rfl⟩

/-- The bit of the next stack is set before any page is mapped. -/
def World.stacked (w : World) : World :=
  { w with stackHeap := { w.stackHeap with
    map := (withRoom w.stackHeap.map).set (nextFree w.stackHeap.map) true } }

theorem stackKmalloc_cases {phys : Nat} (hm : stackKmalloc w = some (w', i, phys)) :
    i = nextFree w.stackHeap.map ∧ ∃ w₁ w2,
      mapStackPage w.stacked (stackToPtr i) = some (w₁, phys) ∧
      (stackPages i).tail.foldlM (fun w v => (mapStackPage w v).map Prod.fst) w₁ = some w2 ∧
      w' = { w2 with stackHeap := { w2.stackHeap with
        usedBlockCount := w2.stackHeap.usedBlockCount + 1 } } := by
  obtain ⟨⟨w₁, a⟩, hfirst, hm⟩ := of_bind hm
  obtain ⟨w2, hfold, heq⟩ := of_bind hm
  cases heq
  exact ⟨rfl, w₁, w2, hfirst, hfold, rfl⟩

/-- A kernel stack is mapped in the part that is shared. -/
theorem stackKmalloc_spec {phys : Nat} (h : Sound w R S)
    (hm : stackKmalloc w = some (w', i, phys)) : KernelOnly R S w w' := by
  obtain ⟨-, w₁, w2, hfirst, hfold, rfl⟩ := stackKmalloc_cases hm
  have hbits := KernelOnly.withStackHeap h
  have hone := mapStackPage_spec (hbits _).steady.sound
    (fun hle => stackPages_shared (stackToPtr_mem _) hle) hfirst
  have hrest := mapStackPages_spec hone.steady.sound
    (fun v hv => stackPages_shared (List.mem_of_mem_tail hv)) hfold
  exact (((hbits _).trans hone).trans hrest).trans (.withStackHeap hrest.steady.sound _)

/-! ## One page -/

theorem Sound.getPhysicalAddress_eq (h : Sound w R S) (hr : R r) (v : VAddr) :
    getPhysicalAddress w r v
      = some (if (pte w r v).p then some ((pte w r v).base * PAGE_SIZE) else none) := by
  rw [getPhysicalAddress, h.getPage_eq hr]
  cases hf : follow w.tables r (path v) with
  | none =>
    rw [pte_of_none hf]
    rfl
  | some t =>
    simp only [map_some, bind_eq_bind, bind_some, h.entry_eq hr hf]

theorem buffer_not_shared : ¬ Shared bufferPage := by
  rintro ⟨-, h⟩
  exact absurd h (by decide)

section ClonePage

variable {C : Type} {pd c : Nat} {s s' : World × (Nat → C)} {e : Entry}

/-- The buffer is mapped to a frame that is in use, and unmapped again. -/
structure Buffered (R : Nat → Prop) (S : Nat) (pd : Nat) (w w' : World) : Prop where
  steady : Steady R S w w'
  owned : Owned R w → Owned R w'
  gone : (pte w' pd bufferPage).p = false
  view : ∀ {r} (v : VAddr), R r → ¬ Shared v → slotOf r v ≠ slotOf pd bufferPage →
    pte w' r v = pte w r v

theorem buffered_spec {a a' : Nat} {w2 : World} (h : Sound w R S) (hpd : R pd)
    (hm : mapPageTo w pd bufferPage a (ATTR_RW + ATTR_NOEXEC) = some w2)
    (hu : unmapPage w2 pd bufferPage = some (w', a')) :
    Buffered R S pd w w' ∧ Sound w2 R S ∧ (pte w2 pd bufferPage).base = a / PAGE_SIZE % 2 ^ 40 ∧
      (∀ {r} (v : VAddr), R r → ¬ Shared v → slotOf r v ≠ slotOf pd bufferPage →
        pte w2 r v = pte w r v) := by
  have hst := mapPageTo_steady h hpd hm
  have hst' := unmapPage_steady hst.sound hpd hu
  obtain ⟨x, hx, hview⟩ := mapPageTo_private h hpd hm
  obtain ⟨hp2, -, hwrite', -, -⟩ := unmapPage_spec hst.sound hpd hu
  have hview2 : ∀ {r} (v : VAddr), R r → ¬ Shared v → slotOf r v ≠ slotOf pd bufferPage →
      pte w2 r v = pte w r v := by
    intro r v hr hv hne
    rw [hview v hr hv, if_neg hne]
  refine ⟨⟨hst.trans hst', fun ho => ?_, ?_, ?_⟩, hst.sound, ?_, hview2⟩
  · -- while the buffer is mapped its slot does not count
    have ho0 : OwnedBut R (· = slotOf pd bufferPage) (fun _ => False) w :=
      ho.recount fun _ hc _ => hc.elim
    obtain ⟨-, w₁, w1', hgrown, -, hwrite, href, -, -⟩ := mapPageTo_spec h hpd hm
    have ho2 := (((ho0.heapSteps hgrown.steps).write_uncounted hwrite rfl).heapSteps
      href.grown.steps).write_uncounted hwrite' rfl
    refine ho2.recount fun {r v} hr hs _ => ?_
    rw [hwrite'.view v hr, if_pos hs]
  · rw [hwrite'.view _ hpd, if_pos rfl]
  · intro r v hr hv hne
    rw [hwrite'.view v hr, if_neg hne, hview2 v hr hv hne]
  · rw [hview _ hpd buffer_not_shared, if_pos rfl, (hx buffer_not_shared).2]
    rfl

/-- What the copy of a page does: the child's entry, and what is in the frame. -/
structure ClonesPage (R : Nat → Prop) (S : Nat) (pd c : Nat) (s : World × (Nat → C)) (e : Entry)
    (v : VAddr) (s' : World × (Nat → C)) (a : Nat) : Prop where
  steady : Steady R S s.1 s'.1
  owned : Owned R s.1 → Owned R s'.1
  view : ∀ {r} (v' : VAddr), R r → ¬ Shared v' → slotOf r v' ≠ slotOf pd bufferPage →
    pte s'.1 r v' = if slotOf r v' = slotOf c v
      then setAttributes e.getAttributes ((pte s.1 c v).present a) else pte s.1 r v'
  /-- The frame is new, and gets what is in the frame of the parent. -/
  copied : (e.getAttributes.testBit 3 = true ∧ a = INVALID_PHYS ∧ s'.2 = s.2 ∧
      pte s'.1 pd bufferPage = pte s.1 pd bufferPage) ∨
    (e.getAttributes.testBit 3 = false ∧ ∃ f, a = f * PAGE_SIZE ∧ ¬ Used s.1.frames f ∧
      Used s'.1.frames f ∧ (pte s.1 pd v).p = true ∧ (pte s'.1 pd bufferPage).p = false ∧
      s'.2 = update s.2 (f % 2 ^ 40) (s.2 (pte s.1 pd v).base))

theorem clonePage_spec (h : Sound s.1 R S) (hpd : R pd) (hc : R c) (hv : ¬ Shared v)
    (hpc : slotOf pd v ≠ slotOf c v) (hvb : slotOf pd v ≠ slotOf pd bufferPage)
    (hcb : slotOf pd bufferPage ≠ slotOf c v) (hm : clonePage pd c s e v = some s') :
    ∃ a, ClonesPage R S pd c s e v s' a := by
  obtain ⟨⟨w₁, a⟩, hpage, hm⟩ := of_bind hm
  have hst := mapPage_steady h hc hpage
  obtain ⟨x, hx, hview⟩ := mapPage_private h hc hpage
  obtain ⟨-, rfl⟩ := hx hv
  refine ⟨a, ?_⟩
  dsimp only at hm
  by_cases hdefer : e.getAttributes.testBit 3 = true
  · rw [if_pos hdefer] at hm
    cases hm
    refine ⟨hst, fun ho => ho.mapPage h hc hpage, fun v' hr hv' _ => hview v' hr hv', ?_⟩
    rcases mapPage_cases hpage with ⟨-, ha, -⟩ | ⟨hno, -⟩
    · refine .inl ⟨hdefer, ha, rfl, ?_⟩
      rw [hview _ hpd buffer_not_shared, if_neg hcb]
    · rw [hdefer] at hno
      cases hno
  · rw [if_neg hdefer] at hm
    obtain ⟨w2, hto, hm⟩ := of_bind hm
    obtain ⟨dstAddr, hdst, hm⟩ := of_bind hm
    obtain ⟨dst, hdst', hm⟩ := of_bind hm
    obtain ⟨srcAddr, hsrc, hm⟩ := of_bind hm
    obtain ⟨src, hsrc', hm⟩ := of_bind hm
    rw [hdst'] at hdst
    rw [hsrc'] at hsrc
    obtain ⟨⟨w3, a'⟩, hunmap, hm⟩ := of_bind hm
    cases hm
    obtain ⟨hbuf, h2, hbase2, hview2⟩ := buffered_spec hst.sound hpd hto hunmap
    rw [h2.getPhysicalAddress_eq hpd] at hdst hsrc
    obtain ⟨-, hdst⟩ := Option.ite_none_right_eq_some.mp (Option.some.inj hdst)
    obtain ⟨hpsrc, hsrc⟩ := Option.ite_none_right_eq_some.mp (Option.some.inj hsrc)
    -- the page of the parent is still where it was
    have hparent : pte w2 pd v = pte s.1 pd v := by
      rw [hview2 v hpd hv hvb, hview v hpd hv, if_neg hpc]
    rw [hparent] at hpsrc hsrc
    rcases mapPage_cases hpage with ⟨hd, -⟩ | ⟨-, frames, f, hfree, -, rfl, hto'⟩
    · exact absurd hd hdefer
    obtain ⟨hunused, hused⟩ := getFreePage_spec hfree
    refine ⟨hst.trans hbuf.steady, fun ho => hbuf.owned (ho.mapPage h hc hpage), ?_,
      .inr ⟨(Bool.not_eq_true _).mp hdefer, f, rfl, hunused, ?_, hpsrc, hbuf.gone, ?_⟩⟩
    · intro r v' hr hv' hne
      rw [hbuf.view v' hr hv' hne, hview v' hr hv']
    · refine hbuf.steady.used ((mapPageTo_steady (h.withFrames frames) hc hto').used ?_)
      exact (hused f).mpr (.inr rfl)
    · have hto : dst / PAGE_SIZE = f % 2 ^ 40 := by
        rw [← Option.some.inj hdst, Nat.mul_div_cancel _ (by decide), hbase2,
          Nat.mul_div_cancel _ (by decide)]
      have hfrom : src / PAGE_SIZE = (pte s.1 pd v).base := by
        rw [← Option.some.inj hsrc, Nat.mul_div_cancel _ (by decide)]
      rw [hto, hfrom]

end ClonePage

/-! ## All pages -/

theorem getAttributes_defer (e : Entry) : e.getAttributes.testBit 3 = true ↔ Deferred e := by
  obtain ⟨p, rw, us, nx, base⟩ := e
  by_cases hb : base = INVALID_PAGE
  · subst hb
    cases p <;> cases rw <;> cases us <;> cases nx <;> decide
  · have hbeq : (base == INVALID_PAGE) = false := beq_eq_false_iff_ne.mpr hb
    simp only [Entry.getAttributes, Deferred, hbeq, hb]
    cases rw <;> cases us <;> cases nx <;>
      simp +decide [ATTR_RW, ATTR_PUBLIC, ATTR_NOEXEC]

section Loop

variable {C : Type} {pd c : Nat} {s₀ s s' : World × (Nat → C)} {n : Nat}

/-- What the child has for an entry of the parent. -/
inductive Copy (s₀ s : World × (Nat → C)) (e e' : Entry) : Prop where
  | invalid (he : e.isValid = false) (he' : e' = .zero)
  | deferred (he : Deferred e)
      (he' : e' = setAttributes e.getAttributes (Entry.zero.present INVALID_PHYS))
  | present {f : Nat} (he : e.p = true) (hnew : ¬ Used s₀.1.frames f) (hused : Used s.1.frames f)
      (he' : e' = setAttributes e.getAttributes (Entry.zero.present (f * PAGE_SIZE)))
      (hmem : s.1.frames.length ≤ 2 ^ 40 → s.2 f = s₀.2 e.base)

/-- The attributes go through, and so does whether the page is there. -/
theorem Copy.same {e e' : Entry} (h : Copy s₀ s e e') :
    e'.isValid = e.isValid ∧ (e.isValid = true → e'.getAttributes = e.getAttributes) ∧
      e'.p = e.p := by
  rcases h with ⟨he, rfl⟩ | ⟨he, rfl⟩ | ⟨he, -, -, rfl, -⟩
  · have hp : e.p = false := by
      rw [Entry.isValid, Bool.or_eq_false_iff] at he
      exact he.1
    refine ⟨?_, fun hc => ?_, hp.symm⟩
    · rw [he]
      decide
    · rw [he] at hc
      cases hc
  · obtain ⟨p, rw, us, nx, base⟩ := e
    obtain ⟨rfl, rfl⟩ : p = false ∧ base = INVALID_PAGE := he
    cases rw <;> cases us <;> cases nx <;> decide
  · obtain ⟨p, rw, us, nx, base⟩ := e
    obtain rfl : p = true := he
    cases rw <;> cases us <;> cases nx <;>
      simp +decide [Entry.isValid, Entry.getAttributes, setAttributes, Entry.present, Entry.zero,
        ATTR_RW, ATTR_PUBLIC, ATTR_NOEXEC]

/-- After the first `n` pages. -/
structure Cloned (R : Nat → Prop) (S : Nat) (pd c : Nat) (s₀ : World × (Nat → C)) (n : Nat)
    (s : World × (Nat → C)) : Prop where
  steady : Steady R S s₀.1 s.1
  owned : Owned R s.1
  parent : ∀ {m}, m < lowerPages → pte s.1 pd (userPage m) = pte s₀.1 pd (userPage m)
  child : ∀ {m}, m < n → m < lowerPages →
    Copy s₀ s (pte s₀.1 pd (userPage m)) (pte s.1 c (userPage m))
  rest : ∀ {m}, n ≤ m → m < lowerPages → pte s.1 c (userPage m) = .zero
  memory : s.1.frames.length ≤ 2 ^ 40 → ∀ {g}, Used s₀.1.frames g → s.2 g = s₀.2 g
  buffer : (pte s.1 pd bufferPage).p = false ∨ pte s.1 pd bufferPage = pte s₀.1 pd bufferPage

theorem userPage_ne_buffer {m : Nat} (hm : m < lowerPages) (r r' : Nat) :
    slotOf r (userPage m) ≠ slotOf r' bufferPage := by
  intro hs
  have hpath := (slotOf_eq_iff.mp hs).1.1
  simp only [path, List.cons.injEq] at hpath
  have hm' : m < 2 ^ 35 := hm
  have h3 := hpath.1
  rw [index_userPage (by omega), (by decide : index 3 bufferPage = 511)] at h3
  omega

theorem parent_ne_child {m : Nat} (hpc : pd ≠ c) (hm : m < lowerPages) (v : VAddr) :
    slotOf pd v ≠ slotOf c (userPage m) := by
  intro hs
  rcases (slotOf_eq_iff.mp hs).2 with hc | hc
  · exact hpc hc
  · exact slotOf_ne_of_shared (lower_not_shared hm) hc hs.symm

theorem Cloned.skip (h : Cloned R S pd c s₀ n s) (hn : n < lowerPages)
    (hvalid : (pte s₀.1 pd (userPage n)).isValid = false) : Cloned R S pd c s₀ (n + 1) s := by
  refine { h with child := fun {m} hm hml => ?_, rest := fun hm => h.rest (by omega) }
  rcases Nat.lt_succ_iff_lt_or_eq.mp hm with hm | rfl
  · exact h.child hm hml
  · exact .invalid hvalid (h.rest le_rfl hn)

/-- The copy of one page. -/
theorem Cloned.step (hpc : pd ≠ c) (h : Cloned R S pd c s₀ n s) (ho0 : Owned R s₀.1) (hpd : R pd) (hc : R c)
    (hn : n < lowerPages) (hvalid : (pte s₀.1 pd (userPage n)).isValid = true)
    (hm : clonePage pd c s (pte s₀.1 pd (userPage n)) (userPage n) = some s') :
    Cloned R S pd c s₀ (n + 1) s' := by
  have hprivate := lower_not_shared hn
  obtain ⟨a, hp⟩ := clonePage_spec h.steady.sound hpd hc hprivate (parent_ne_child hpc hn _)
    (userPage_ne_buffer hn pd pd) (parent_ne_child hpc hn _) hm
  have hzero := h.rest le_rfl hn
  have hentry := h.parent hn
  -- what is seen of the child and of the parent afterwards
  have hother : ∀ {m}, m < lowerPages → m ≠ n →
      pte s'.1 c (userPage m) = pte s.1 c (userPage m) := by
    intro m hml hne
    rw [hp.view _ hc (lower_not_shared hml) (userPage_ne_buffer hml c pd), if_neg]
    exact fun hs => hne (userPage_slot_inj hml hn hs)
  have hself : pte s'.1 c (userPage n)
      = setAttributes (pte s₀.1 pd (userPage n)).getAttributes (Entry.zero.present a) := by
    rw [hp.view _ hc hprivate (userPage_ne_buffer hn c pd), if_pos rfl, hzero]
  -- frames that were in use before the step keep what is in them
  have hkeep : s'.1.frames.length ≤ 2 ^ 40 → ∀ {g}, Used s.1.frames g → s'.2 g = s.2 g := by
    intro hb g hg
    rcases hp.copied with ⟨-, -, heq, -⟩ | ⟨-, f, -, hnew, hused, -, -, heq⟩
    · rw [heq]
    · rw [heq, hused.base_eq hb]
      refine update_of_ne ?_ ..
      rintro rfl
      exact hnew hg
  refine ⟨h.steady.trans hp.steady, hp.owned h.owned, ?_, ?_, ?_, ?_, ?_⟩
  · intro m hml
    rw [hp.view _ hpd (lower_not_shared hml) (userPage_ne_buffer hml pd pd),
      if_neg (parent_ne_child hpc hn _), h.parent hml]
  · intro m hm hml
    rcases Nat.lt_succ_iff_lt_or_eq.mp hm with hm | rfl
    · rw [hother hml hm.ne]
      rcases h.child hm hml with ⟨he, he'⟩ | ⟨he, he'⟩ | ⟨he, hnew, hused, he', hmem⟩
      · exact .invalid he he'
      · exact .deferred he he'
      · refine .present he hnew (hp.steady.used hused) he' fun hb => ?_
        rw [hkeep hb hused]
        exact hmem (hp.steady.frames_le.trans hb)
    · rw [hself]
      rcases hp.copied with ⟨hdefer, rfl, -, -⟩ | ⟨hdefer, f, rfl, hnew, hused, hpres, -, heq⟩
      · exact .deferred ((getAttributes_defer _).mp hdefer) rfl
      · rw [hentry] at hpres
        refine .present hpres (fun hc => hnew (h.steady.used hc)) hused rfl fun hb => ?_
        have hb0 := (h.steady.trans hp.steady).frames_le.trans hb
        have hmarked : Used s₀.1.frames (pte s₀.1 pd (userPage m)).base :=
          (ho0 hb0).marked (x := some (slotOf pd (userPage m))) ⟨id, pd, _, hpd, rfl, hpres, rfl⟩
        rw [heq, hused.base_eq hb, update_self, hentry]
        exact h.memory (hp.steady.frames_le.trans hb) hmarked
  · intro m hm hml
    rw [hother hml (by omega)]
    exact h.rest (by omega) hml
  · intro hb g hg
    rw [hkeep hb (h.steady.used hg)]
    exact h.memory (hp.steady.frames_le.trans hb) hg
  · rcases hp.copied with ⟨-, -, -, hbuf⟩ | ⟨-, f, -, -, -, -, hgone, -⟩
    · rw [hbuf]
      exact h.buffer
    · exact .inl hgone

/-- The copy of a page, as a computation with no calls. -/
def clonePage' (pd c : Nat) (s : World × (Nat → C)) (e : Entry) (v : VAddr) :
    Traced Unit (World × (Nat → C)) := liftM (clonePage pd c s e v)

theorem forEach_clonePage_eq (hpc : pd ≠ c) (h : Sound s₀.1 R S) (hpd : R pd) (hc : R c) :
    forEachUserPage (fun s => World.tables s.1) (clonePage pd c) pd s₀
      = ((List.range lowerPages).foldlM (visit s₀.1.tables (clonePage' pd c) pd) s₀).result := by
  have hresult : forEachUserPage (fun s => World.tables s.1) (clonePage pd c) pd s₀
      = (forEachUserPage (fun s => World.tables s.1) (clonePage' pd c) pd s₀).result := by
    rw [forEachUserPage_result]
    rfl
  -- what the traversal needs: the parent's pages and paths stay
  let I (s : World × (Nat → C)) : Prop := Steady R S s₀.1 s.1 ∧
    ∀ m < lowerPages, pte s.1 pd (userPage m) = pte s₀.1 pd (userPage m)
  have hkeeps : ∀ s, I s → Keeps s₀.1.tables s.1.tables pd := fun s hs =>
    ⟨fun ht => hs.1.sound.live hpd ht, fun _ ht => hs.1.ext.follow_eq ht, fun hn => hs.2 _ hn⟩
  have hstep : ∀ (s : World × (Nat → C)) (n : Nat) (s' : World × (Nat → C)), I s → n < 2 ^ 35 →
      (pageEntry s₀.1.tables pd n).isValid →
      (clonePage' pd c s (pageEntry s₀.1.tables pd n) (userPage n)).result = some s' →
      I s' ∧ PathsStay s.1.tables s'.1.tables pd := by
    intro s n s' hs hn _ hres
    obtain ⟨a, hp⟩ := clonePage_spec hs.1.sound hpd hc (lower_not_shared hn)
      (parent_ne_child hpc hn _) (userPage_ne_buffer hn pd pd) (parent_ne_child hpc hn _) hres
    refine ⟨⟨hs.1.trans hp.steady, fun m hml => ?_⟩, fun p t ht => hp.steady.ext.follow_eq ht⟩
    rw [hp.view _ hpd (lower_not_shared hml) (userPage_ne_buffer hml pd pd),
      if_neg (parent_ne_child hpc hn _), hs.2 m hml]
  have hrefl : Steady R S s₀.1 s₀.1 := .refl h
  rw [hresult, forEachUserPage_eq hkeeps hstep ⟨hrefl, fun _ _ => rfl⟩]

/-- The loop. -/
theorem forEach_clonePage (hpc : pd ≠ c) (h : Sound s₀.1 R S) (ho0 : Owned R s₀.1) (hpd : R pd)
    (hc : R c) (hzero : ∀ {m}, m < lowerPages → pte s₀.1 c (userPage m) = .zero)
    (hm : forEachUserPage (fun s => World.tables s.1) (clonePage pd c) pd s₀ = some s) :
    Cloned R S pd c s₀ lowerPages s := by
  rw [forEach_clonePage_eq hpc h hpd hc] at hm
  have hloop : Traced.Spec False (fun _ => True) (Cloned R S pd c s₀ lowerPages)
      ((List.range lowerPages).foldlM (visit s₀.1.tables (clonePage' pd c) pd) s₀) := by
    refine Traced.Spec.foldlM_range (Cloned R S pd c s₀) ?_ ?_
    · exact ⟨.refl h, ho0, fun _ => rfl, fun hm => absurd hm (by omega),
        fun _ hml => hzero hml, fun _ _ _ => rfl, .inr rfl⟩
    · intro s n hn hcl
      rw [visit]
      split
      · rename_i hvalid
        exact .lift (fun hres => hcl.step hpc ho0 hpd hc hn hvalid hres) fun h => h.elim
      · rename_i hvalid
        exact .pure (hcl.skip hn ((Bool.not_eq_true _).mp hvalid))
  exact hloop.post hm

end Loop

/-- What a clone leaves: a directory that is a copy of the parent's lower half. -/
structure Clones {C : Type} (R : Nat → Prop) (S : Nat) (pd c : Nat) (s s' : World × (Nat → C)) :
    Prop where
  cloned : ∃ s₁ : World × (Nat → C), s₁.2 = s.2 ∧
    Cloned (fun r => R r ∨ r = c) S pd c s₁ lowerPages s' ∧
    (∀ {r} (v : VAddr), R r → ¬ Shared v → pte s₁.1 r v = pte s.1 r v) ∧
    (∀ {f}, Used s.1.frames f → Used s₁.1.frames f)
  new : s.1.tables c = none
  kernel : s'.1.kernel = s.1.kernel
  fresh : ∀ {x}, Fresh s.1 x → Fresh s'.1 x

/-- `clone`. -/
theorem clone_spec {C : Type} {pd : Nat} {s s' : World × (Nat → C)} {newPd : PageDirectory}
    (h : Sound s.1 R S) (ho : Owned R s.1) (hpd : R pd)
    (hm : clone s pd = some (s', newPd, i)) : Clones R S pd newPd.root s s' := by
  obtain ⟨⟨w₁, pd1⟩, hkernel, hm⟩ := of_bind hm
  obtain ⟨⟨w2, stack, phys⟩, hstack, hm⟩ := of_bind hm
  obtain ⟨s3, hloop, hm⟩ := of_bind hm
  cases hm
  have hmap := mapKernel_spec h hkernel
  have hst := stackKmalloc_spec hmap.sound hstack
  have ho2 := hst.owned (ho.mapKernel h hmap)
  have hne : pd ≠ newPd.root := by
    rintro rfl
    have hlive := h.rootLive hpd
    rw [hmap.new] at hlive
    cases hlive
  have hcl := forEach_clonePage hne hst.steady.sound ho2 (.inl hpd) (.inr rfl) (fun {m} hml => ?_)
    hloop
  · refine ⟨⟨(w2, s.2), rfl, hcl, fun v hr hv => ?_, fun hf => ?_⟩, hmap.new, ?_, fun hx => ?_⟩
    · rw [hst.view v (.inl hr) hv, hmap.grown.steps.pte_private hr hv]
    · exact hst.steady.used (hmap.grown.steps.used hf)
    · rw [hcl.steady.ext.kernel]
      exact hst.steady.ext.kernel.trans hmap.ext.kernel
    · exact hcl.steady.fresh (hst.steady.fresh (hmap.grown.fresh hx))
  · have hprivate := lower_not_shared hml
    rw [hst.view _ (.inr rfl) hprivate, hmap.view, if_neg hprivate]

end Flix.Paging

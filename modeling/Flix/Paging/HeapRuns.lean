import Flix.Paging.StackHeap

/-!
# Runs of the page heaps

Any number of calls of `kmalloc`, `kfree` and `refillPool`, on either heap. The state
has beside the kernel's memory the blocks that callers hold, with the addresses they got
them with, and `kfree` is called with one of these.

The limit `N` is how many blocks the heap of directories has at most. It has addresses
for `2 ^ 16`, which it never exceeds, but from `16384` on they are those of the stacks.
A call that needs a longer bitmap of the frames than the kernel heap has room for does
not return.
-/

namespace Flix.Paging.HeapRuns

open Function Radix Runs Traced

structure State where
  world : World
  held : List (Nat × Nat)
  stackHeld : List (Nat × Nat)

inductive Act where
  | kmalloc
  | kfree (b : Nat)
  | refillPool
  | stackKmalloc
  | stackKfree (b : Nat)

def act (s : State) : Act → Option State
  | .kmalloc => do
      let (w, block) ← allocBlock s.world
      some { s with world := w, held := block :: s.held }
  | .kfree b => do
      let w ← (Paging.kfree s.world b : Traced Call World).result
      some { s with world := w, held := s.held.filter fun x => x.1 ≠ b }
  | .refillPool => do
      let w ← Paging.refillPool s.world
      some { s with world := w }
  | .stackKmalloc => do
      let (w, block) ← Paging.stackKmalloc s.world
      some { s with world := w, stackHeld := block :: s.stackHeld }
  | .stackKfree b => do
      let w ← (Paging.stackKfree s.world b : Traced Call World).result
      some { s with world := w, stackHeld := s.stackHeld.filter fun x => x.1 ≠ b }

def step (s : State) (a : Act) : Option State := do
  let s' ← act s a
  assert s'.world.Fits
  some s'

/-- A call that is about the caller's own block, and of the stacks only where they have their
addresses to themselves. -/
def Act.Fair (N : Nat) (s : State) : Act → Prop
  | .kfree b => b ∈ s.held.map Prod.fst
  | .stackKmalloc => N ≤ 16384
  | .stackKfree b => N ≤ 16384 ∧ b ∈ s.stackHeld.map Prod.fst
  | _ => True

structure Guard (N : Nat) (s : State) (a : Act) : Prop where
  fair : a.Fair N s
  fits : ∀ s', step s a = some s' → s'.world.heap.map.length ≤ N

/-- Both books. -/
structure Inv (R : Nat → Prop) (S N : Nat) (s : State) : Prop where
  books : Books R S N s.world s.held
  owned : Owned R s.world
  stack : N ≤ 16384 → StackBooks s.world s.stackHeld
  bitmap : s.world.Fits

variable {R : Nat → Prop} {S N : Nat} {s s' s₀ : State}

theorem of_step {a : Act} (hs : step s a = some s') : act s a = some s' ∧ s'.world.Fits := by
  obtain ⟨s₁, hact, hs⟩ := of_bind hs
  obtain ⟨hfits, hs⟩ := of_assert hs
  cases hs
  exact ⟨hact, hfits⟩

theorem step_of_act {a : Act} (hact : act s a = some s') (hfits : s'.world.Fits) :
    step s a = some s' := by
  rw [step, hact, bind_eq_bind, bind_some, assert_pos hfits]
  rfl

theorem Inv.step {a : Act} (h : Inv R S N s) (hg : Guard N s a) (hs : step s a = some s') :
    Inv R S N s' := by
  have hroom := hg.fits s' hs
  have hfair := hg.fair
  obtain ⟨hs, hbitmap⟩ := of_step hs
  cases a with
  | kmalloc =>
    obtain ⟨⟨w, u, phys⟩, ha, hs⟩ := of_bind hs
    cases hs
    obtain ⟨-, ht, hbooks⟩ := h.books.alloc ha hroom
    refine ⟨hbooks, h.owned.heapSteps ht.alloc.grown.steps, fun hN => ?_, hbitmap⟩
    exact (h.stack hN).grown h.books.sound ht.alloc.grown hroom hN
  | kfree b =>
    obtain ⟨w, hk, hs⟩ := of_bind hs
    cases hs
    obtain ⟨x, hx, rfl⟩ := mem_map.mp hfair
    obtain ⟨hbooks, ho⟩ := h.books.kfree h.owned hx hk
    refine ⟨hbooks, ho, fun hN => ?_, hbitmap⟩
    have hu := h.books.fresh hx
    obtain ⟨-, -, htorn⟩ := (kfree_spec h.books.sound h.owned (hu.unreached h.books.sound)
      hu.noPool False.elim).post hk
    -- the pages of the block are not those of a stack
    refine (h.stack hN).keep htorn.stackHeap htorn.kernel htorn.framesLength.ge fun b n hb hn => ?_
    rcases htorn.view (stackPage b n) h.books.sound.kernel with hv | ⟨-, y, ⟨c, m, rfl, -, hm, rfl⟩, hs⟩
    · exact hv
    · have hc := (getElem?_lt hu.used).trans_le h.books.room
      exact absurd hs (stackPage_apart hN hb hn _ _ hc hm)
  | refillPool =>
    obtain ⟨w, hr, hs⟩ := of_bind hs
    cases hs
    have href := refillPool_spec h.books.sound hr
    refine ⟨h.books.refillPool hr hroom, h.owned.heapSteps href.grown.steps, fun hN => ?_, hbitmap⟩
    exact (h.stack hN).grown h.books.sound href.grown hroom hN
  | stackKmalloc =>
    obtain ⟨⟨w, i, phys⟩, hm, hs⟩ := of_bind hs
    cases hs
    obtain ⟨hbooks, hstack, -⟩ := (h.stack hfair).kmalloc h.books hm hroom hfair
    exact ⟨hbooks, (stackKmalloc_spec h.books.sound hm).owned h.owned, fun _ => hstack, hbitmap⟩
  | stackKfree b =>
    obtain ⟨w, hk, hs⟩ := of_bind hs
    cases hs
    obtain ⟨hN, hb⟩ := hfair
    obtain ⟨x, hx, rfl⟩ := mem_map.mp hb
    have hstack := h.stack hN
    have hlt := hstack.lt ((hstack.live x.1).mpr hb)
    have hfreed := (stackKfree_spec h.books.sound h.owned hlt False.elim).post hk
    obtain ⟨hbooks, hstack'⟩ := hstack.kfree h.books hN hx hfreed
    exact ⟨hbooks, hfreed.owned, fun _ => hstack', hbitmap⟩

/-! ## What is kept -/

/-- A block that is allocated: in a caller's hand, or a table that a directory leads to. -/
def Live (R : Nat → Prop) (s : State) (b : Nat) : Prop :=
  b ∈ s.held.map Prod.fst ∨ ∃ r q, R r ∧ follow s.world.tables r q = some b

theorem kfree_step {b : Nat} {w : World}
    (hk : (Paging.kfree s.world b : Traced Call World).result = some w) (hf : w.Fits) :
    step s (.kfree b) = some { s with world := w, held := s.held.filter fun x => x.1 ≠ b } := by
  refine step_of_act ?_ hf
  rw [act, hk]
  rfl

theorem smallKernel_books {N : Nat} (hN : 20 ≤ N ∧ N ≤ 2 ^ 16) :
    Books (· = 0) 2 N smallKernel [] := by
  have hused : ∀ {b : Nat}, smallKernel.heap.map[b]? = some true ↔ b < 20 := by
    intro b
    show (List.replicate 20 true)[b]? = some true ↔ _
    rw [List.getElem?_replicate]
    split <;> simp_all
  have hpage : ∀ {b}, b < 20 →
      At smallKernel (heapPage b 0) ((8 + 2 * b) * PAGE_SIZE) := by
    intro b hb
    have hentry : pte smallKernel 0 (heapPage b 0) = _ := smallKernel_heapPage hb (by omega)
    refine ⟨congrArg Entry.p hentry, 8 + 2 * b, rfl, ?_, .inl (by omega)⟩
    refine (congrArg Entry.base hentry).trans ?_
    show 8 + (2 * b + 0) = (8 + 2 * b) % 2 ^ 40
    omega
  refine ⟨smallKernel_sound, rfl, by omega, ?_, fun hx => absurd hx not_mem_nil,
    List.nodup_nil, fun {b} hb => ?_, ?_, ?_, ?_, fun {b} hb => ?_, fun {x} hx => ?_⟩
  · show (List.replicate 20 true).length ≤ N
    simp only [length_replicate]
    omega
  · -- blocks below 4 are tables, the others are in the pool
    have hlt := hused.mp hb.used
    rcases Nat.lt_or_ge b 4 with h4 | h4
    · have hreach : ∀ {q}, follow smallKernel.tables 0 q ≠ some b := fun hq => hb.unreached rfl hq
      rcases (by omega : b = 0 ∨ b = 1 ∨ b = 2 ∨ b = 3) with rfl | rfl | rfl | rfl
      · exact absurd rfl (hreach (q := []))
      · exact absurd rfl (hreach (q := [511]))
      · exact absurd rfl (hreach (q := [511, 511]))
      · exact absurd rfl (hreach (q := [511, 511, 256]))
    · refine absurd rfl (hb.noPool (b, (8 + 2 * b) * PAGE_SIZE) ?_)
      refine mem_map.mpr ⟨b - 4, mem_range.mpr (by omega), ?_⟩
      rw [Nat.sub_add_cancel h4]
  · exact (List.count_replicate_self).symm
  · intro b n hb hn hmap
    exact congrArg Entry.p (smallKernel_heapPage (hused.mp hmap) hn)
  · intro b n hb hbN hn hmap
    have hb20 : ¬ b < 20 := fun hc => hmap (hused.mpr hc)
    by_contra hc
    obtain ⟨hpath, hindex, -⟩ := smallKernel_pte _ ((Bool.not_eq_false _).mp hc)
    have hpath' := path_heapPage (b := b) (by omega) hn
    rw [hpath, region] at hpath'
    simp only [List.cons.injEq] at hpath'
    rw [index, heapPage_toNat (by omega) hn] at hindex
    omega
  · have hat := hpage (b := b) (by omega)
    have haddr : 0x8000 + b * PAGE_SIZE * 2 = (8 + 2 * b) * PAGE_SIZE := by
      rw [PAGE_SIZE]
      omega
    show At _ _ (0x8000 + b * PAGE_SIZE * 2)
    rw [haddr]
    exact hat
  · obtain ⟨i, hi, rfl⟩ := mem_map.mp hx
    exact hpage (by have := mem_range.mp hi; omega)

def start : State := ⟨smallKernel, [], []⟩

theorem start_inv : Inv (· = 0) 2 16384 start := by
  refine ⟨smallKernel_books ⟨by omega, by omega⟩, smallKernel_owned, fun _ => ?_, by decide⟩
  have hnone : ∀ b : Nat, start.world.stackHeap.map[b]? ≠ some true := fun b hb => by cases hb
  refine ⟨by decide, fun b => iff_of_false (hnone b) not_mem_nil, List.nodup_nil, rfl,
    fun _ hb => absurd hb (hnone _), fun {b n} hb hn _ => ?_, fun hx => absurd hx not_mem_nil⟩
  by_contra hc
  obtain ⟨hpath, -⟩ := smallKernel_pte _ ((Bool.not_eq_false _).mp hc)
  exact stackPage_away (by omega) hb hn 0 (by omega) hpath

/-! ## Runs -/

end Flix.Paging.HeapRuns

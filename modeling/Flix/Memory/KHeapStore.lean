import Flix.Memory.KHeapRuns

/-!
# The heap as a store

What clients keep in their payloads. `kmalloc` writes headers, some of them in the middle of
blocks that are free, and `kfree` writes one header; none of this is inside a payload that
somebody holds, and the payloads of two pointers are apart. So a byte has the value that its
owner has stored in it last.
-/

namespace Flix.KHeap

open Bytes Runs

variable {s s' : State} {bs : List Nat} {a : Nat × Nat} {offset : Nat}

theorem kmalloc_keeps_byte {size : Nat} {pages : Mem} (hi : HeapInv s bs)
    (hok : Admissible s (.kmalloc size pages))
    (hs : step s (.kmalloc size pages) = some s') (ha : a ∈ s.live) (hoff : offset < a.2) :
    s'.heap.mem (a.1 + offset) = s.heap.mem (a.1 + offset) := by
  by_cases h0 : size = 0
  · subst h0
    cases hs
    rfl
  · obtain ⟨h', bs', b, e, halloc⟩ := kmalloc_spec hi.tiled h0 hok.1 hok.2.1 hok.2.2
    rw [step, e] at hs
    cases hs
    obtain ⟨hb, hp, hused, hsize⟩ := hi.live a ha
    refine (halloc.keep _ hb hused).2 _ ?_ ?_ <;> unfold getData HEADER_SIZE at * <;> omega

theorem kfree_keeps_byte {p : Nat} (hi : HeapInv s bs) (hok : Admissible s (.kfree p))
    (ha : a ∈ s.live) (hoff : offset < a.2) :
    (kfree s.heap p).mem (a.1 + offset) = s.heap.mem (a.1 + offset) := by
  unfold kfree
  split
  · rfl
  · rename_i hp
    obtain ⟨n, hn⟩ := hok.resolve_left hp
    refine setUsed_outside ?_
    have hapart := hi.payload_apart ha hoff (hi.live _ hn).1
    simp only [blockOf, HEADER_SIZE] at hapart ⊢
    omega

/-- An operation leaves a byte that is held, unless it is a store to that byte. -/
theorem step_keeps_byte {op : Op} (hi : HeapInv s bs) (hok : Admissible s op)
    (hs : step s op = some s') (ha : a ∈ s.live) (hoff : offset < a.2)
    (hop : ∀ v, op ≠ .write a.1 offset v) :
    s'.heap.mem (a.1 + offset) = s.heap.mem (a.1 + offset) := by
  cases op with
  | kmalloc size pages => exact kmalloc_keeps_byte hi hok hs ha hoff
  | kfree p =>
    cases hs
    exact kfree_keeps_byte hi hok ha hoff
  | write p o v =>
    cases hs
    refine writeLE_outside ?_
    obtain ⟨n, hn, ho⟩ := hok
    by_cases hp : p = a.1
    · subst hp
      have hne : o ≠ offset := fun he => hop v (he ▸ rfl)
      omega
    · -- the payloads of two pointers are apart
      obtain ⟨hb, hpb, -, hsize⟩ := hi.live _ hn
      obtain ⟨hab, hap, -, hsize'⟩ := hi.live a ha
      unfold blockOf getData HEADER_SIZE at *
      have hne : a.1 - 4 ≠ p - 4 := by omega
      rcases hi.tiled.tiles.disjoint hab hb hne with hd | hd <;> omega

theorem heapInv_of_reach {mem : Mem} {h0 : Heap} (hboot : BootFits mem) (hinit : init mem = some h0)
    (hs : Reach step Admissible ⟨h0, []⟩ s) : ∃ bs, HeapInv s bs := by
  obtain ⟨h, bs, e, ht, -⟩ := init_spec hboot
  obtain rfl := mem_unique hinit e
  refine Reach.invariant (I := fun s => ∃ bs, HeapInv s bs) ⟨bs, .mk' ht (by simp) (by simp)⟩ ?_ hs
  rintro s op s' ⟨bs, hi⟩ hok hstep
  obtain ⟨s1, bs1, e, hi, -⟩ := heapInv_step hi hok
  exact ⟨bs1, mem_unique e hstep ▸ hi⟩

/-- What is done while `p` is held and nobody stores to the byte. -/
def Spares (p offset : Nat) (s : State) (op : Op) : Prop :=
  Admissible s op ∧ op ≠ .kfree p ∧ ∀ v, op ≠ .write p offset v

/-- A byte of a pointer that is held is the same after any run that spares it. -/
theorem keeps_byte_of_reach (hrun : Reach step (Spares a.1 offset) s s') (hi : HeapInv s bs)
    (ha : a ∈ s.live) (hoff : offset < a.2) :
    s'.heap.mem (a.1 + offset) = s.heap.mem (a.1 + offset) := by
  suffices h : (∃ bs, HeapInv s' bs) ∧ a ∈ s'.live ∧
      s'.heap.mem (a.1 + offset) = s.heap.mem (a.1 + offset) from h.2.2
  refine Reach.invariant (I := fun t => (∃ bs, HeapInv t bs) ∧ a ∈ t.live ∧
    t.heap.mem (a.1 + offset) = s.heap.mem (a.1 + offset)) ⟨⟨bs, hi⟩, ha, rfl⟩ ?_ hrun
  rintro t op t' ⟨⟨bs, hi⟩, ha, hv⟩ ⟨hok, hfree, hstore⟩ hstep
  obtain ⟨t1, bs1, e, hi1, hothers⟩ := heapInv_step hi hok
  obtain rfl := mem_unique e hstep
  exact ⟨⟨bs1, hi1⟩, (hothers _ ha hfree).1, (step_keeps_byte hi hok hstep ha hoff hstore).trans hv⟩

/-- What is stored stays. After a client has stored a byte, any number of blocks can be
allocated, given back and written to: the byte is there until its owner stores another one or
gives the block back. -/
theorem stored_byte_stays {mem : Mem} {h0 : Heap} {s1 : State} {p : Nat} {v : UInt8}
    (hboot : BootFits mem) (hinit : init mem = some h0)
    (hs : Reach step Admissible ⟨h0, []⟩ s) (hok : Admissible s (.write p offset v))
    (hw : step s (.write p offset v) = some s1) (hrun : Reach step (Spares p offset) s1 s') :
    s'.heap.mem (p + offset) = v := by
  obtain ⟨bs, hi⟩ := heapInv_of_reach hboot hinit hs
  obtain ⟨s2, bs2, e, hi2, -⟩ := heapInv_step hi hok
  obtain rfl := mem_unique e hw
  obtain ⟨n, hn, hoff⟩ := hok
  cases hw
  have hkeep := keeps_byte_of_reach (a := (p, n)) hrun hi2 hn hoff
  simpa [writeLE] using hkeep

theorem stored_byte_stays_bootImage :
    ∃ h0 s s1 s', init bootImage = some h0 ∧ step ⟨h0, []⟩ (.kmalloc 10) = some s ∧
      step s (.write (heapBase + 24) 0 7) = some s1 ∧
      step s1 (.write (heapBase + 24) 1 9) = some s' ∧ s'.heap.mem (heapBase + 24 + 0) = 7 := by
  have hboot : BootFits bootImage := by unfold BootFits; decide
  obtain ⟨h0, bs, e0, ht, -⟩ := init_spec hboot
  have hsearch := searchAll_bootImage
  rw [e0, map_some, Option.some.injEq] at hsearch
  have hok : Admissible ⟨h0, []⟩ (.kmalloc 10) :=
    ⟨by unfold RequestOk; decide, fun block hb => (by rw [hsearch] at hb; cases hb), rfl⟩
  obtain ⟨s, -, e, -⟩ := heapInv_step (.mk' ht (by simp) (by simp)) hok
  have hlive : (heapBase + 24, 10) ∈ s.live := by
    have hrun : ((init bootImage).bind fun h => (step ⟨h, []⟩ (.kmalloc 10)).map State.live)
        = some [(heapBase + 24, 10)] := by decide +kernel
    rw [e0, bind_some, e, map_some] at hrun
    rw [Option.some.inj hrun]
    exact mem_cons_self
  exact ⟨h0, s, _, _, e0, e, rfl, rfl, stored_byte_stays hboot e0 (.tail .start hok e)
    ⟨10, hlive, by decide⟩ rfl (.tail (a := .write (heapBase + 24) 1 9) .start
      ⟨⟨10, hlive, by decide⟩, by simp, by simp⟩ rfl)⟩

end Flix.KHeap

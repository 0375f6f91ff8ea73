import Flix.Paging.WiredDirectories

/-!
# The walk of the processor

The processor knows nothing of blocks and pointers. It starts from the frame in `CR3`, and
in every table it reads the entry and goes on to the frame that is named there.

What it reads are the frames. The kernel writes a table through its first page, so that a
memory in which the tables stand is one that shows them on the frames the kernel directory
has for them (`Shows`). In every such memory the walk of the processor ends where that of
the kernel ends.
-/

namespace Flix.Paging

open Function Radix

variable {w : World} {R : Nat → Prop} {S : Nat} {C : Nat → Nat → Prop} {mem : Nat → Nat → Entry}

/-- The walk, from a table of level `n` on frame `f` down to the entry of the page. -/
def hardwareWalk (mem : Nat → Nat → Entry) : Nat → Nat → VAddr → Option (Nat × Nat)
  | 0, f, v => some (f, index 0 v)
  | n + 1, f, v =>
    if (mem f (index (n + 1) v)).p then hardwareWalk mem n (mem f (index (n + 1) v)).base v
    else none

/-- The frame of the first page of a block. -/
def frameOf (w : World) (u : Nat) : Nat := (pte w w.kernel.root (heapPage u 0)).base

/-- The tables that the directories lead to stand in memory. -/
structure Shows (R : Nat → Prop) (w : World) (mem : Nat → Nat → Entry) : Prop where
  entries : ∀ {r p t n}, R r → follow w.tables r p = some t → w.tables t = some n →
    mem (frameOf w t) = n.entries

/-- From each table both walks go the same way. -/
theorem Wired.hardwareWalk_from (h : Wired R C S w) (hmem : Shows R w mem) {r t k : Nat}
    {p : List Nat} (v : VAddr) (hr : R r) (hp : follow w.tables r p = some t)
    (hlen : p.length + k ≤ 3) :
    hardwareWalk mem k (frameOf w t) v
      = (follow w.tables t (pathTo 0 k v)).map fun u => (frameOf w u, index 0 v) := by
  induction k generalizing t p with
  | zero => rfl
  | succ k ih =>
    obtain ⟨n, hn⟩ := isSome_iff_exists.mp (h.sound.live hr hp)
    rw [hardwareWalk, hmem.entries hr hp hn, pathTo, follow_cons hn, Nat.zero_add]
    cases hu : n.next (index (k + 1) v) with
    | none =>
      have habsent := h.sound.absent hr hp hn (by omega) hu
      rw [if_neg (by rw [habsent]; exact Bool.false_ne_true)]
      rfl
    | some u =>
      -- the entry is the one of the pointer
      obtain ⟨hpresent, -, hbase⟩ := h.names.entry hr hp hn hu
      rw [if_pos hpresent, ← hbase]
      refine ih ((follow_snoc hp hn).trans hu) ?_
      rw [length_append, List.length_singleton]
      omega

/-- Both walks find the same entry. -/
theorem Wired.hardwareWalk_eq (h : Wired R C S w) (hmem : Shows R w mem) {r f : Nat} (v : VAddr)
    (hc : C r f) :
    ∃ page, getEntry w.tables 0 3 r v = some page ∧
      hardwareWalk mem 3 f v = page.map (fun x => (frameOf w x.1, x.2)) ∧
      ∀ x ∈ page, w.entry x.1 x.2 = some (mem (frameOf w x.1) x.2) := by
  obtain ⟨hr, -, hbase⟩ := h.cr3 hc
  refine ⟨_, h.sound.getPage_eq hr v, ?_, fun x hx => ?_⟩
  · have hwalk := h.hardwareWalk_from hmem (k := 3) (p := []) v hr rfl le_rfl
    rw [frameOf, hbase] at hwalk
    rw [hwalk, Option.map_map]
    rfl
  · obtain ⟨t, ht, rfl⟩ := map_eq_some_iff.mp hx
    obtain ⟨n, hn⟩ := isSome_iff_exists.mp (h.sound.live hr ht)
    rw [World.entry, hn, hmem.entries hr ht hn]
    rfl

/-! ## Frames -/

/-- Tables stand on different frames, if no frame is mapped twice. -/
theorem Wired.frameOf_inj (h : Wired R C S w) (ho : Owned R w) (hb : w.frames.length ≤ 2 ^ 40)
    {r r' t t' : Nat} {p p' : List Nat} (hr : R r) (hr' : R r') (hp : follow w.tables r p = some t)
    (hp' : follow w.tables r' p' = some t') (hf : frameOf w t = frameOf w t') : t = t' := by
  have hholds : ∀ {u : Nat}, InUse R w u → Holds R (fun _ => False) (fun _ => False) w
      (some (slotOf w.kernel.root (heapPage u 0))) (frameOf w u) := by
    intro u hu
    obtain ⟨f, hat, hbase⟩ := h.pageAt hu
    exact ⟨id, _, _, h.sound.kernel, rfl, hat, rfl⟩
  have ht : InUse R w t := .table hr hp
  have ht' : InUse R w t' := .table hr' hp'
  have hfirst := hholds ht
  rw [hf] at hfirst
  have hs := Option.some.inj ((ho hb).unique hfirst (hholds ht'))
  exact (slotOf_heapPage (h.lt ht) (h.lt ht') (by omega) (by omega) hs).1

/-- So there is a memory in which they stand. -/
theorem Wired.shows (h : Wired R C S w) (ho : Owned R w) (hb : w.frames.length ≤ 2 ^ 40) :
    ∃ mem, Shows R w mem := by
  classical
  refine ⟨fun f => if hf : ∃ n r p t, R r ∧ follow w.tables r p = some t ∧ w.tables t = some n ∧
    frameOf w t = f then hf.choose.entries else fun _ => .zero, ⟨fun {r p t n} hr hp hn => ?_⟩⟩
  have hf : ∃ n' r' p' t', R r' ∧ follow w.tables r' p' = some t' ∧ w.tables t' = some n' ∧
      frameOf w t' = frameOf w t := ⟨n, r, p, t, hr, hp, hn, rfl⟩
  rw [dif_pos hf]
  obtain ⟨r', p', t', hr', hp', hn', heq⟩ := hf.choose_spec
  obtain rfl := h.frameOf_inj ho hb hr' hr hp' hp heq
  rw [mem_unique hn' hn]

end Flix.Paging

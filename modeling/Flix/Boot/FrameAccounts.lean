import Mathlib.Data.Nat.Find
import Flix.Boot.FreeFrames

/-!
# The accounts of the frames

All that `Memory` does, in any order: frames given out and given back, and frames
reserved one by one or in ranges. The bitmap is made longer in two ways in the middle of
that, to a multiple of 16 or by 16, and neither changes which frames are in use.

Beside the bitmap and the counter stands who has the frames that are in use: those that
`getFreePage` has returned, and those that were reserved. A frame has one entry in one of
the two lists, so nothing is given out twice and nothing reserved is given out.
-/

namespace Flix.Boot

open Paging Runs

inductive FrameOp where
  | getFreePage
  | setPageFree (page : Nat)
  | setPageUsed (page : Nat)
  | setRangeUsed (start stop : Nat)
  | completeRangeUsed (start stop : Nat)

/-- `Memory`, with the frames that were given out and those that were reserved. -/
structure Accounts where
  mem : Memory
  out : List Nat
  reserved : List Nat

def range (start stop : Nat) : List Nat := List.range' start (stop - start)

def account (s : Accounts) : FrameOp → Option Accounts
  | .getFreePage => do
      let (mem, f) ← s.mem.getFreePage
      some ⟨mem, f :: s.out, s.reserved⟩
  | .setPageFree page => do
      let mem ← s.mem.setPageFree page
      some ⟨mem, s.out.erase page, s.reserved.erase page⟩
  | .setPageUsed page => do
      let mem ← s.mem.setPageUsed page
      some ⟨mem, s.out, page :: s.reserved⟩
  | .setRangeUsed start stop => do
      let mem ← s.mem.setRangeUsed start stop
      some ⟨mem, s.out, range start stop ++ s.reserved⟩
  | .completeRangeUsed start stop => do
      assert (start ≤ stop)
      let mem ← s.mem.completeRangeUsed start (stop - start)
      -- the frames of the range that nobody had
      let new := (range start stop).filter (fun f => f ∉ s.out ++ s.reserved)
      some ⟨mem, s.out, new ++ s.reserved⟩

/-- How `Memory` may be used. The numbers are those of frames of 64-bit addresses. -/
def Permitted (s : Accounts) : FrameOp → Prop
  | .getFreePage => True
  | .setPageFree page => page < 2 ^ 52 ∧ Used s.mem.frames page
  | .setPageUsed page => page < 2 ^ 52 ∧ ¬ Used s.mem.frames page
  | .setRangeUsed start stop => start ≤ stop ∧ stop ≤ 2 ^ 52 ∧
      ∀ f, start ≤ f → f < stop → ¬ Used s.mem.frames f
  | .completeRangeUsed start stop => start ≤ stop ∧ stop ≤ 2 ^ 52

/-- What each operation is to do with the frames. `getFreePage` marks the first that is not in
use, and a bitmap that is made longer does not show in any of this. -/
def Marks (s s' : Accounts) : FrameOp → Prop
  | .getFreePage => ∃ f, s'.out = f :: s.out ∧ ¬ Used s.mem.frames f ∧
      (∀ g < f, Used s.mem.frames g) ∧
      ∀ j, Used s'.mem.frames j ↔ Used s.mem.frames j ∨ j = f
  | .setPageFree page => ∀ j, Used s'.mem.frames j ↔ Used s.mem.frames j ∧ j ≠ page
  | .setPageUsed page => ∀ j, Used s'.mem.frames j ↔ Used s.mem.frames j ∨ j = page
  | .setRangeUsed start stop => ∀ j, Used s'.mem.frames j ↔
      Used s.mem.frames j ∨ start ≤ j ∧ j < stop
  | .completeRangeUsed start stop => ∀ j, Used s'.mem.frames j ↔
      Used s.mem.frames j ∨ start ≤ j ∧ j < stop

variable {s s' : Accounts} {mem mem' : Memory} {f start stop : Nat}

theorem mem_range : f ∈ range start stop ↔ start ≤ f ∧ f < stop := by
  rw [range, List.mem_range'_1]
  omega

/-! ## The counter -/

variable {frames frames' : List Bool}

theorem setPageUsed_count (h : setPageUsed frames f = some frames') :
    frames'.count true = frames.count true + 1 := by
  have hfree := (Paging.setPageUsed_spec h).1
  rw [setPageUsed_free hfree] at h
  cases h
  exact count_set_grown hfree

/-- Both ways to a free page end with `setPageUsed`, of a bitmap with as many set bits. -/
theorem getFreePage_count (h : Paging.getFreePage frames = some (frames', f)) :
    frames'.count true = frames.count true + 1 := by
  unfold Paging.getFreePage at h
  split at h
  · obtain ⟨frames1, hset, heq⟩ := map_eq_some_iff.mp h
    obtain ⟨rfl, -⟩ := Prod.mk.inj heq
    exact setPageUsed_count hset
  · obtain ⟨frames1, hset, heq⟩ := map_eq_some_iff.mp h
    obtain ⟨rfl, -⟩ := Prod.mk.inj heq
    rw [setPageUsed_count hset, List.count_append]
    rfl

theorem Memory.getFreePage_counted (h : mem.getFreePage = some (mem', f)) (hc : mem.Counted) :
    mem'.Counted := by
  obtain ⟨⟨frames, g⟩, hget, h⟩ := of_bind h
  obtain ⟨rfl, rfl⟩ := Prod.mk.inj (Option.some.inj h)
  exact (congrArg (· + 1) hc).trans (getFreePage_count hget).symm

theorem setPageFree_count (h : setPageFree frames f = some frames') :
    frames'.count true = frames.count true - 1 := by
  obtain ⟨hlt, h⟩ := of_assert h
  obtain ⟨hused, h⟩ := of_assert h
  cases h
  rw [List.getElem?_eq_getElem hlt] at hused
  rw [List.count_set hlt, Option.some.inj hused]
  rfl

theorem setPageFree_total (h : Used frames f) : ∃ frames', setPageFree frames f = some frames' := by
  unfold setPageFree
  have hbit : frames[f]? = some true := h
  rw [assert_pos h.lt, assert_pos hbit]
  exact ⟨_, rfl⟩

/-! ## Who has a frame -/

/-- The accounts are right. -/
structure Accounts.Right (s : Accounts) : Prop where
  counted : s.mem.Counted
  nodup : (s.out ++ s.reserved).Nodup
  used : ∀ f, Used s.mem.frames f ↔ f ∈ s.out ++ s.reserved

theorem exists_least_free (frames : List Bool) :
    ∃ f, ¬ Used frames f ∧ ∀ g < f, Used frames g := by
  have hex : ∃ f, ¬ Used frames f := ⟨frames.length, fun h => absurd h.lt (lt_irrefl _)⟩
  exact ⟨Nat.find hex, Nat.find_spec hex, fun g hg => not_not.mp (Nat.find_min hex hg)⟩

theorem Accounts.Right.add (hs : s.Right) (hcount : s'.mem.Counted) {l : List Nat}
    (hnew : l.Nodup) (hfree : ∀ f ∈ l, ¬ Used s.mem.frames f)
    (hused : ∀ j, Used s'.mem.frames j ↔ Used s.mem.frames j ∨ j ∈ l)
    (hperm : (s'.out ++ s'.reserved).Perm (l ++ (s.out ++ s.reserved))) : s'.Right where
  counted := hcount
  nodup := by
    rw [hperm.nodup_iff, List.nodup_append']
    exact ⟨hnew, hs.nodup, fun f hf hmem => hfree f hf ((hs.used f).mpr hmem)⟩
  used f := by
    rw [hused, hs.used, hperm.mem_iff, mem_append (s := l), or_comm]

theorem Accounts.Right.getFreePage (hs : s.Right) :
    ∃ s', account s .getFreePage = some s' ∧ Marks s s' .getFreePage ∧ s'.Right := by
  obtain ⟨f, hfree, hleast⟩ := exists_least_free s.mem.frames
  obtain ⟨mem, hget, hused⟩ := getFreePage_least hfree hleast
  refine ⟨⟨mem, f :: s.out, s.reserved⟩, by rw [account, hget]; rfl,
    ⟨f, rfl, hfree, hleast, hused⟩, ?_⟩
  refine hs.add (Memory.getFreePage_counted hget hs.counted) (List.nodup_singleton f)
    (fun g hg => mem_singleton.mp hg ▸ hfree) (fun j => ?_) (List.Perm.refl _)
  rw [hused, mem_singleton]

theorem Accounts.Right.setPageFree (hs : s.Right) (hf : Used s.mem.frames f) :
    ∃ s', account s (.setPageFree f) = some s' ∧ Marks s s' (.setPageFree f) ∧ s'.Right := by
  obtain ⟨frames, hset⟩ := setPageFree_total hf
  have hmem : s.mem.setPageFree f = some ⟨frames, s.mem.usedPageCount - 1⟩ := by
    rw [Memory.setPageFree, hset]
    rfl
  have hused := (Paging.setPageFree_spec hset).2
  obtain ⟨hout, hreserved, hdisjoint⟩ := List.nodup_append'.mp hs.nodup
  refine ⟨⟨⟨frames, s.mem.usedPageCount - 1⟩, s.out.erase f, s.reserved.erase f⟩,
    by rw [account, hmem]; rfl, hused, ?_, ?_, ?_⟩
  · exact (congrArg (· - 1) hs.counted).trans (setPageFree_count hset).symm
  · refine List.nodup_append'.mpr ⟨hout.erase f, hreserved.erase f, fun g hg hg' => ?_⟩
    exact hdisjoint (List.mem_of_mem_erase hg) (List.mem_of_mem_erase hg')
  · intro j
    rw [hused, hs.used, mem_append, mem_append, hout.mem_erase_iff,
      hreserved.mem_erase_iff, ← and_or_left, and_comm]

/-- Frames that are reserved: the lists that the loops mark. -/
theorem Accounts.Right.reserve (hs : s.Right) {l : List Nat} (hmark : markAll s.mem l = some mem) :
    (∀ j, Used mem.frames j ↔ Used s.mem.frames j ∨ j ∈ l) ∧
      (⟨mem, s.out, l ++ s.reserved⟩ : Accounts).Right := by
  obtain ⟨hnodup, hfree, hused, hcount⟩ := markAll_spec hmark
  refine ⟨hused, hs.add (hcount hs.counted) hnodup hfree hused ?_⟩
  rw [← append_assoc, ← append_assoc]
  exact List.perm_append_comm.append_right _

theorem Accounts.Right.setPageUsed (hs : s.Right) (hf : ¬ Used s.mem.frames f) :
    ∃ s', account s (.setPageUsed f) = some s' ∧ Marks s s' (.setPageUsed f) ∧ s'.Right := by
  obtain ⟨mem, hset⟩ := Memory.setPageUsed_free hf
  have hmark : markAll s.mem [f] = some mem := by
    rw [markAll, foldlM_cons, hset]
    rfl
  obtain ⟨hused, hright⟩ := hs.reserve hmark
  refine ⟨⟨mem, s.out, f :: s.reserved⟩, by rw [account, hset]; rfl, fun j => ?_, hright⟩
  rw [hused, mem_singleton]

theorem Accounts.Right.setRangeUsed (hs : s.Right) (hle : start ≤ stop)
    (hfree : ∀ f, start ≤ f → f < stop → ¬ Used s.mem.frames f) :
    ∃ s', account s (.setRangeUsed start stop) = some s' ∧
      Marks s s' (.setRangeUsed start stop) ∧ s'.Right := by
  obtain ⟨mem, hmark⟩ : ∃ mem, markAll s.mem (range start stop) = some mem :=
    markAll_total List.nodup_range' fun f hf => hfree f (mem_range.mp hf).1 (mem_range.mp hf).2
  have hset : s.mem.setRangeUsed start stop = some mem := by
    rw [Memory.setRangeUsed, assert_pos hle, ← hmark]
    exact entryLoop_eq
  obtain ⟨hused, hright⟩ := hs.reserve hmark
  refine ⟨⟨mem, s.out, _⟩, by rw [account, hset]; rfl, fun j => ?_, hright⟩
  rw [hused, mem_range]

theorem Accounts.Right.completeRangeUsed (hs : s.Right) (hle : start ≤ stop) :
    ∃ s', account s (.completeRangeUsed start stop) = some s' ∧
      Marks s s' (.completeRangeUsed start stop) ∧ s'.Right := by
  obtain ⟨mem, hset, hused, hcount⟩ := completeRangeUsed_spec (stop - start) start s.mem
  have hstop : start + (stop - start) = stop := Nat.add_sub_cancel' hle
  rw [hstop] at hused
  let l := (range start stop).filter (fun f => f ∉ s.out ++ s.reserved)
  have hl : ∀ f, f ∈ l ↔ (start ≤ f ∧ f < stop) ∧ ¬ Used s.mem.frames f := by
    intro f
    rw [List.mem_filter, mem_range, decide_eq_true_eq, hs.used]
  refine ⟨⟨mem, s.out, l ++ s.reserved⟩, ?_, hused, ?_⟩
  · rw [account, assert_pos hle, hset]
    rfl
  refine hs.add (l := l) (hcount hs.counted) (List.Nodup.filter _ List.nodup_range')
    (fun f hf => ((hl f).mp hf).2) (fun j => ?_) ?_
  · rw [hused, hl]
    by_cases hj : Used s.mem.frames j <;> simp [hj]
  · rw [← append_assoc, ← append_assoc]
    exact List.perm_append_comm.append_right _

/-- One operation: it succeeds, it marks what it is to mark, and the accounts stay right. -/
theorem Accounts.Right.step (hs : s.Right) {op : FrameOp} (hop : Permitted s op) :
    ∃ s', account s op = some s' ∧ Marks s s' op ∧ s'.Right := by
  cases op with
  | getFreePage => exact hs.getFreePage
  | setPageFree page => exact hs.setPageFree hop.2
  | setPageUsed page => exact hs.setPageUsed hop.2
  | setRangeUsed start stop => exact hs.setRangeUsed hop.1 hop.2.2
  | completeRangeUsed start stop => exact hs.completeRangeUsed hop.1

/-- `Memory` as it is made. -/
def noFrames : Accounts := ⟨⟨[], 0⟩, [], []⟩

theorem noFrames_right : noFrames.Right where
  counted := rfl
  nodup := List.nodup_nil
  used f := iff_of_false (fun h => absurd h.lt (Nat.not_lt_zero f)) not_mem_nil

/-- **The frames are accounted for.** In every state that permitted operations reach, the counter
is the number of set bits, and the frames that were given out and not given back are all
different and none of them is reserved. Every permitted operation succeeds there and changes
the status of its own frames only. -/
theorem frames_accounted (hs : Reach account Permitted noFrames s) :
    s.mem.usedPageCount = s.mem.frames.count true ∧ (s.out ++ s.reserved).Nodup ∧
      (∀ f, Used s.mem.frames f ↔ f ∈ s.out ∨ f ∈ s.reserved) ∧
      ∀ op, Permitted s op → ∃ s', account s op = some s' ∧ Marks s s' op := by
  have hright : s.Right := by
    refine hs.invariant noFrames_right fun s op s' hi hop hstep => ?_
    obtain ⟨s'', hstep', -, hright⟩ := hi.step hop
    exact Option.some.inj (hstep'.symm.trans hstep) ▸ hright
  refine ⟨hright.counted, hright.nodup, fun f => ?_, fun op hop => ?_⟩
  · rw [hright.used, mem_append]
  · obtain ⟨s', hstep, hmarks, -⟩ := hright.step hop
    exact ⟨s', hstep, hmarks⟩

/-- A frame beyond the bitmap reserved, and the first one given out. -/
theorem frames_accounted_two :
    Reach account Permitted noFrames
      ⟨⟨(List.replicate 48 false).set 40 true |>.set 0 true, 2⟩, [0], [40]⟩ ∧
    (List.replicate 48 false |>.set 40 true |>.set 0 true).count true = 2 := by
  have hs : Reach account Permitted noFrames
      ⟨⟨(List.replicate 48 false).set 40 true |>.set 0 true, 2⟩, [0], [40]⟩ := by
    refine Reach.tail (a := .getFreePage) (Reach.tail (a := .setPageUsed 40) .start ?_ rfl)
      trivial rfl
    exact ⟨by decide, fun h => absurd h.lt (Nat.not_lt_zero _)⟩
  exact ⟨hs, (frames_accounted hs).1.symm⟩

end Flix.Boot

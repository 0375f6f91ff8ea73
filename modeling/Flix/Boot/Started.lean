import Flix.Boot.KernelDirectoryTotal
import Flix.Paging.Mmap

/-!
# What the kernel starts with

The first directory of a kernel of up to 512 pages is a start for the results about the
pool, about processes and about `mmap`. The pool is still empty then: the first page that
is mapped fills it.
-/

namespace Flix.Boot

open Paging

/-- The world after `initKernelDirectory`. -/
structure Started (w : World) : Prop extends Booted w, Small w

theorem initKernelDirectory_started {l : Layout} (hl : l.text + l.rodata + l.data ≤ 512) :
    ∃ w, initKernelDirectory l = some w ∧ Started w := by
  obtain ⟨w, h, hsmall⟩ := initKernelDirectory_total hl
  exact ⟨w, h, initKernelDirectory_spec h, hsmall⟩

namespace Started

variable {w : World} (h : Started w)
include h

theorem ready : Ready (· = 0) 2 Pool.blockLimit w := by
  have hfirst : Prepared w 0 := by
    have hp := (h.wired.static (b := 0) (by omega)).1
    rw [Prepared, ← path_heapPage (n := 0) (by omega) (by omega)]
    by_contra hc
    rw [pte_of_none (Option.not_isSome_iff_eq_none.mp hc)] at hp
    cases hp
  have hblocks := h.blocks
  refine ⟨h.wired.sound, h.idle, hfirst, fun {b} hb => prepared_region hfirst (by omega),
    fun {b n} hb hbN hn _ => ?_⟩
  -- what is mapped is below the page heap, in its first 16 blocks, or above it
  by_contra hc
  rw [h.root, Bool.not_eq_false] at hc
  have hb' : b < 16384 := hbN
  have hmapped := h.mapped hc
  rw [heapPage_toNat (by omega) hn] at hmapped
  omega

theorem stock {k : Nat} (hk : k ≤ 100) :
    Stock (fun _ l => l.length < INVALID_PAGE) (· = 0) 2 Pool.blockLimit k w := by
  have hblocks := h.blocks
  have hshort := h.short
  exact ⟨h.ready, by decide, by rw [Pool.blockLimit]; omega,
    supply_of_length le_rfl (by rw [INVALID_PAGE]; omega)⟩

theorem enough :
    (4 ≤ w.heap.pool.length ∨ w.heap.map.length ≤ 236) ∧ w.heap.pool.length ≤ 16 := by
  have hblocks := h.blocks
  rw [h.pool]
  exact ⟨.inr (by omega), by decide⟩

/-- The first mapping fills the pool. -/
theorem first_mapping {a : Pool.Act} (hg : Pool.Guard (· = 0) w a) :
    ∃ w', Pool.step w a = some w' ∧ Full (· = 0) 2 Pool.blockLimit w' :=
  Pool.step_fills (h.stock (by omega)) h.enough hg

/-- There is no process yet, and every frame in use has one owner. -/
theorem good {C : Type} (mem : Nat → C) : Processes.Good 2 ⟨w, mem, [], []⟩ :=
  .of_kernel h.root h.wired.sound h.owned (h.short.trans (by decide)) mem

/-- Nobody has called `mmap`. -/
theorem start {C : Type} (mem : Nat → C) :
    Mmap.Start 2 ⟨⟨w, mem, [], []⟩, Mmap.firstPtr, fun _ => []⟩ :=
  ⟨(h.good mem).toInv, rfl, fun _ => rfl⟩

end Started

end Flix.Boot

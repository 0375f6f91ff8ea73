import Flix.Exec.Elf
import Flix.Paging.CloneTotal

/-!
# The pages of a program

`elf::exec` maps the pages that it needs one by one. That succeeds when no page of the list
is mapped already and none is in it twice, as long as there is memory; and when it succeeds
the pages were such. A page is what `mapPage` makes of an address, so two addresses in one
page are one page twice.
-/

namespace Flix.Exec

open Bytes Paging Fs

/-- A directory of a process, with memory for `k` blocks of tables once the pool is full. A page
takes 9 at most. -/
structure Roomy (R : Nat → Prop) (S k : Nat) (w : World) (root : Nat) : Prop where
  stock : Stock (fun _ _ => True) R S Pool.blockLimit (k + (16 - w.heap.pool.length)) w
  pool : 4 ≤ w.heap.pool.length ∧ w.heap.pool.length ≤ 16
  dir : R root

/-- Nothing is mapped in the lower half. -/
def Vacant (w : World) (root : Nat) : Prop := ∀ v, Low v → (pte w root v).p = false

/-! ## Loops over pages -/

section Loop

variable {start n : Nat} {v : VAddr}

theorem mem_pagesFrom (h : start + n * 4096 ≤ 2 ^ 64) :
    v ∈ pagesFrom start n ↔ ∃ k < n, v.toNat = start + k * 4096 := by
  rw [pagesFrom, mem_map]
  constructor
  · rintro ⟨k, hk, rfl⟩
    have hk' := mem_range.mp hk
    exact ⟨k, hk', by rw [BitVec.toNat_ofNat]; omega⟩
  · rintro ⟨k, hk, hv⟩
    exact ⟨k, mem_range.mpr hk, by rw [← hv, BitVec.ofNat_toNat, BitVec.setWidth_eq]⟩

/-- The pages that a loop comes to are consecutive, whatever the offset of its start. -/
theorem map_pageOf_pagesFrom (h : start + n * 4096 ≤ 2 ^ 64) :
    (pagesFrom start n).map pageOf = List.range' (start / 4096) n := by
  rw [pagesFrom, List.map_map, List.range'_eq_map_range]
  refine List.map_congr_left fun k hk => ?_
  have hk' := mem_range.mp hk
  show (BitVec.ofNat 64 (start + k * 4096)).toNat / 4096 = start / 4096 + k
  rw [BitVec.toNat_ofNat]
  omega

end Loop

section MapPages

variable {R : Nat → Prop} {S k : Nat} {w w' : World} {root : Nat} {vs : List VAddr}

variable {v : VAddr}

theorem accepts_user (hv : Low v) : Accepts v (ATTR_RW + ATTR_PUBLIC) := by
  have hv' : v.toNat < 2 ^ 47 := hv
  refine ⟨fun h => absurd h.2 (by decide), fun h => ?_, by decide⟩
  omega

/-- In one directory, lower addresses have one slot when they are on one page. -/
theorem slot_iff {u : VAddr} (hu : Low u) (hv : Low v) :
    slotOf root u = slotOf root v ↔ pageOf u = pageOf v :=
  Canonical.slotOf_eq_iff (.inl hu) (.inl hv)

/-- A page that a program may read and write. -/
def IsMapped (w : World) (root : Nat) (v : VAddr) : Prop :=
  (pte w root v).p = true ∧ (pte w root v).rw = true ∧ (pte w root v).us = true

/-- One page. -/
theorem mapPage_user {a : Nat} (hs : Sound w R S) (hr : R root) (hv : Low v)
    (hm : mapPage w root v (ATTR_RW + ATTR_PUBLIC) = some (w', a)) :
    Sound w' R S ∧ (pte w root v).p = false ∧
    (∀ u, Low u → pageOf u = pageOf v → IsMapped w' root u) ∧
      ∀ u, Low u → pageOf u ≠ pageOf v → pte w' root u = pte w root u := by
  obtain ⟨e, he, hview⟩ := mapPage_private hs hr hm
  obtain ⟨hp, rfl⟩ := he hv.not_shared
  refine ⟨(mapPage_steady hs hr hm).sound, hp, fun u hu hpage => ?_, fun u hu hpage => ?_⟩
  · rw [IsMapped, hview u hr hu.not_shared, if_pos ((slot_iff hu hv).mpr hpage)]
    exact ⟨rfl, Bool.or_true _, Bool.or_true _⟩
  · rw [hview u hr hu.not_shared, if_neg fun h => hpage ((slot_iff hu hv).mp h)]

/-- What mapping a list of pages comes to. -/
theorem mapPages_spec (hr : R root) (hlow : ∀ v ∈ vs, Low v) (hs : Sound w R S)
    (hm : mapPages w root vs = some w') :
    Sound w' R S ∧ (vs.map pageOf).Nodup ∧ (∀ v ∈ vs, (pte w root v).p = false) ∧
      (∀ u, Low u → pageOf u ∈ vs.map pageOf → IsMapped w' root u) ∧
      ∀ u, Low u → pageOf u ∉ vs.map pageOf → pte w' root u = pte w root u := by
  induction vs generalizing w with
  | nil =>
    cases hm
    exact ⟨hs, List.nodup_nil, fun v hv => absurd hv not_mem_nil,
      fun u _ hu => absurd hu not_mem_nil, fun _ _ _ => rfl⟩
  | cons v vs ih =>
    obtain ⟨w1, hmap, hm⟩ := of_bind hm
    obtain ⟨⟨w1', a⟩, hpage, rfl⟩ := map_eq_some_iff.mp hmap
    have hv := hlow v mem_cons_self
    obtain ⟨hs1, hp, hmapped, hother⟩ := mapPage_user hs hr hv hpage
    obtain ⟨hs', hnodup, hfree, hmapped', hother'⟩ :=
      ih (fun u hu => hlow u (mem_cons_of_mem v hu)) hs1 hm
    -- a page that comes again would have been present
    have hnew : pageOf v ∉ vs.map pageOf := by
      intro hmem
      obtain ⟨u, hu, hpage⟩ := mem_map.mp hmem
      have hlowu := hlow u (mem_cons_of_mem v hu)
      have hpresent := (hmapped u hlowu hpage).1
      rw [hfree u hu] at hpresent
      cases hpresent
    refine ⟨hs', nodup_cons.mpr ⟨hnew, hnodup⟩, fun u hu => ?_, fun u hlowu hu => ?_,
      fun u hlowu hu => ?_⟩
    · rcases mem_cons.mp hu with rfl | hu
      · exact hp
      · have hne : pageOf u ≠ pageOf v := fun he => hnew (he ▸ List.mem_map_of_mem hu)
        rw [← hother u (hlow u (mem_cons_of_mem v hu)) hne]
        exact hfree u hu
    · by_cases hin : pageOf u ∈ vs.map pageOf
      · exact hmapped' u hlowu hin
      · have hpage : pageOf u = pageOf v := (mem_cons.mp hu).resolve_right hin
        rw [IsMapped, hother' u hlowu hin]
        exact hmapped u hlowu hpage
    · rw [List.map_cons, mem_cons, not_or] at hu
      rw [hother' u hlowu hu.2, hother u hlowu hu.1]

/-- New pages can be mapped, one after the other. -/
theorem mapPages_total (h : Roomy R S (k + 9 * vs.length) w root) (hlow : ∀ v ∈ vs, Low v)
    (hnodup : (vs.map pageOf).Nodup) (hfree : ∀ v ∈ vs, (pte w root v).p = false) :
    ∃ w', mapPages w root vs = some w' ∧ Roomy R S k w' root := by
  induction vs generalizing w with
  | nil => exact ⟨w, rfl, h⟩
  | cons v vs ih =>
    have hv := hlow v mem_cons_self
    obtain ⟨hnew, hnodup⟩ := nodup_cons.mp hnodup
    have hpool := h.pool
    have hstock := h.stock
    rw [length_cons] at hstock
    obtain ⟨w1, a, hmap, hst, hpool1, -⟩ := mapPage_total (c := k + 9 * vs.length)
      (hstock.mono (by omega)) (by omega) h.dir (accepts_user hv)
      (hfree v mem_cons_self) (Apart.of_private (Nat.le_refl _) hv.not_shared)
    obtain ⟨-, -, -, hother⟩ := mapPage_user hstock.ready.sound h.dir hv hmap
    obtain ⟨w', hrest, hroomy⟩ := ih ⟨hst.mono (by omega), by omega, h.dir⟩
      (fun u hu => hlow u (mem_cons_of_mem v hu)) hnodup fun u hu => by
        have hne : pageOf u ≠ pageOf v := fun he => hnew (he ▸ List.mem_map_of_mem hu)
        rw [hother u (hlow u (mem_cons_of_mem v hu)) hne]
        exact hfree u (mem_cons_of_mem v hu)
    refine ⟨w', ?_, hroomy⟩
    rw [mapPages, foldlM_cons, hmap]
    exact hrest

end MapPages

/-! ## A new process -/

/-- The small kernel has room for a process with some pages. -/
theorem exists_process : ∃ w root, Roomy (fun d => d = 0 ∨ d = root) 2 98 w root ∧ Vacant w root ∧
    Owned (fun d => d = 0 ∨ d = root) w ∧ root ≠ w.kernel.root := by
  obtain ⟨w, pd, hk, hst', hlow, hhigh⟩ := Pool.smallKernel_stock.mapKernel (by decide)
  have hpool : smallKernel.heap.pool.length = 16 := rfl
  have hsound := smallKernel_sound
  have hmap := mapKernel_spec hsound hk
  refine ⟨w, pd.root, ⟨hst'.mono (by omega), by omega, .inr rfl⟩, fun v hv => ?_,
    smallKernel_owned.mapKernel hsound hmap, fun hc => ?_⟩
  · rw [hmap.view, if_neg hv.not_shared]
    rfl
  · have hlive := hsound.rootLive hsound.kernel
    rw [← hmap.ext.kernel, ← hc, hmap.new] at hlive
    cases hlive

theorem stackPages_low {v : VAddr} (hv : v ∈ stackPages) : Low v := by
  obtain ⟨k, hk, hv⟩ := (mem_pagesFrom (by decide)).mp hv
  show v.toNat < 2 ^ 47
  omega

theorem stackPages_pages : stackPages.map pageOf = List.range' 0xf000000 4 :=
  map_pageOf_pagesFrom (by decide)

variable {R : Nat → Prop} {S root : Nat} {w : World}

/-- A program whose pages can be mapped is started. -/
theorem exec_starts {rflags : Nat} {f : File} {m : Mem}
    {args : List Str} (h : Roomy R S (9 * f.pages.length) w root) (hvacant : Vacant w root)
    (hmagic : checkHeader f.header = true) (hflags : rflags.testBit 9 = true)
    (hlow : ∀ v ∈ f.pages, Low v) (hnodup : (f.pages.map pageOf).Nodup) :
    ∃ w' l st, mapPages w root f.pages = some w' ∧
      exec f root args rflags w m = some (l, some st) := by
  obtain ⟨w', hmap, -⟩ := mapPages_total (by rwa [Nat.zero_add]) hlow hnodup
    fun v hv => hvacant v (hlow v hv)
  rw [exec_eq hmagic, hmap, assert_pos hflags]
  exact ⟨w', _, _, rfl, rfl⟩

theorem Roomy.mono {j k : Nat} (h : Roomy R S k w root) (hj : j ≤ k) : Roomy R S j w root :=
  ⟨h.stock.mono (by omega), h.pool, h.dir⟩

/-- A program without segments needs the pages of its stack. -/
theorem starts_without_segments {f : File}
    {m : Mem} {args : List Str} (h : Roomy R S 36 w root) (hvacant : Vacant w root)
    (hmagic : checkHeader f.header = true) (hnum : e_phnum f.header = 0) :
    ∃ l st, exec f root args 0x200 w m = some (l, some st) := by
  have hpages : f.pages = stackPages := by
    rw [File.pages, File.programHeaders, hnum]
    rfl
  obtain ⟨w', l, st, -, hexec⟩ : ∃ w' l st, mapPages w root f.pages = some w' ∧
      exec f root args 0x200 w m = some (l, some st) :=
    exec_starts (h.mono (by rw [hpages]; decide)) hvacant hmagic (by decide)
      (fun v hv => stackPages_low (hpages ▸ hv))
      (by rw [hpages, stackPages_pages]; exact List.nodup_range')
  exact ⟨l, st, hexec⟩

/-- A file that is nothing but an ELF header, without program headers. -/
def headerOnly : File where
  data := [0x7f, 69, 76, 70] ++ List.replicate 60 0
  around _ := 0
  locals _ _ := 0

theorem headerOnly_starts (args : List Str) (m : Mem) : ∃ w root l st,
    exec headerOnly root args 0x200 w m = some (l, some st) := by
  obtain ⟨w, root, hroomy, hvacant, -⟩ := exists_process
  exact ⟨w, root, starts_without_segments (hroomy.mono (by decide)) hvacant (by decide) (by decide)⟩

end Flix.Exec

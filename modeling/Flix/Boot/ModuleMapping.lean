import Flix.Boot.MemoryMap
import Flix.Paging.StackHeap

/-!
# The module

The boot loader leaves one module, an archive. Its frames are reserved by `prepareMemory`,
and `handle` maps them above the stack, where `readArchive` starts. Both use the same loop,
which goes in pages from the first byte of the module.

A page is mapped to the frame of an address, whatever its offset in it. So the byte at the
stack base is the first byte of the module's first frame, and it is the module's own first
byte only if the module starts with a page. The boot loader is not asked for that: the
request is commented out in the header.
-/

namespace Flix.Boot

open Bytes Paging

/-! ## `handle` -/

/-- `getStackBase`. -/
def stackBase : VAddr := 0xffffffffd0000000

/-- The loop of `handleModule`, with the mapping. -/
def moduleMapLoop (lastPAddr : Nat) : Nat → Nat → VAddr → World → Option World
  | 0, _, _, _ => none
  | fuel + 1, paddr, curPtr, w =>
    if paddr < lastPAddr then do
      let w ← mapPageTo w w.kernel.root curPtr paddr ATTR_NOEXEC
      moduleMapLoop lastPAddr fuel (paddr + PAGE_SIZE) (curPtr + 0x1000) w
    else some w

/-- `handleModule`. The address of the result is where `readArchive` starts, and that there is one
is `_moduleRead`. -/
def handleModule (m : Mem) (mod : Nat) (s : World × Option VAddr) :
    Option (World × Option VAddr) := do
  -- "More than one module specified on boot"
  assert (s.2 = none)
  let w ← moduleMapLoop (modEnd m mod) (modEnd m mod + 1) (modStart m mod) stackBase s.1
  some (w, some stackBase)

def handleTag (m : Mem) (tag : Nat) (s : World × Option VAddr) : Option (World × Option VAddr) :=
  if tagType m tag = 3 then handleModule m tag s else some s

/-- `handle(mboot, false)`, over at most `fuel` tags. -/
def handle (m : Mem) (mboot fuel : Nat) (w : World) : Option (World × Option VAddr) :=
  handleLoop m (fun s tag => handleTag m tag s) fuel (mboot + headerSize) (w, none)

/-! ## A list of mappings -/

/-- Pages of the kernel directory, each with its physical address. -/
def mapAll (w : World) (l : List (VAddr × Nat)) : Option World :=
  l.foldlM (fun w x => mapPageTo w w.kernel.root x.1 x.2 ATTR_NOEXEC) w

/-- The mappings of a module. -/
def modulePages (start count : Nat) : List (VAddr × Nat) :=
  (List.range count).map fun i => (stackBase + BitVec.ofNat 64 (i * 4096), start + i * 4096)

/-- The addresses between the stack and the page heap. -/
def Gap (v : VAddr) : Prop := 0xffffffffd0000000 ≤ v.toNat ∧ v.toNat < 0xffffffffe0000000

theorem mapPages_from {last : Nat} : ∀ {fuel paddr : Nat} {cur : VAddr} {w : World},
    last - paddr < fuel → moduleMapLoop last fuel paddr cur w =
      mapAll w ((List.range ((last - paddr + 4095) / 4096)).map fun i =>
        (cur + BitVec.ofNat 64 (i * 4096), paddr + i * 4096))
  | 0, _, _, _, h => absurd h (Nat.not_lt_zero _)
  | fuel + 1, paddr, cur, w, h => by
    rw [moduleMapLoop]
    split
    · rename_i hlt
      have hcount : (last - paddr + 4095) / 4096 = (last - (paddr + 4096) + 4095) / 4096 + 1 := by
        omega
      rw [hcount, List.range_succ_eq_map, List.map_cons, List.map_map, mapAll, foldlM_cons, BitVec.add_zero]
      refine congrArg _ (funext fun w => ?_)
      have hsize : PAGE_SIZE = 4096 := rfl
      rw [hsize, mapPages_from (by omega)]
      have hnext : ∀ i, (cur + 0x1000 + BitVec.ofNat 64 (i * 4096), paddr + 4096 + i * 4096)
          = (cur + BitVec.ofNat 64 (i.succ * 4096), paddr + i.succ * 4096) := by
        intro i
        rw [BitVec.add_assoc, Nat.succ_mul, BitVec.ofNat_add, BitVec.add_comm 0x1000,
          Nat.add_assoc, Nat.add_comm 4096]
        rfl
      rw [List.map_congr_left fun i _ => hnext i]
      rfl
    · have hcount : (last - paddr + 4095) / 4096 = 0 := by omega
      rw [hcount]
      rfl

theorem handleModule_eq {m : Mem} {mod : Nat} {w : World} : handleModule m mod (w, none) =
    (mapAll w (modulePages (modStart m mod) ((modEnd m mod - modStart m mod + 4095) / 4096))).bind
      fun w => some (w, some stackBase) := by
  rw [handleModule, mapPages_from (by omega)]
  rfl

theorem foldlM_handleTag {m : Mem} {tags : List Nat} {s : World × Option VAddr} :
    tags.foldlM (fun s tag => handleTag m tag s) s =
      (tags.filter fun t => tagType m t = 3).foldlM (fun s tag => handleTag m tag s) s := by
  induction tags generalizing s with
  | nil => rfl
  | cons t tags ih =>
    by_cases ht : tagType m t = 3
    · rw [List.filter_cons_of_pos (by simpa using ht), foldlM_cons]
      exact congrArg _ (funext fun s => ih)
    · rw [List.filter_cons_of_neg (by simpa using ht), foldlM_cons, handleTag, if_neg ht]
      exact ih

section Mapping

variable {w w' : World} {R : Nat → Prop} {S : Nat} {l : List (VAddr × Nat)}

/-- Below the page heap nothing is the page heap's. -/
theorem not_heapPage_of_below {r : Nat} {v : VAddr} (hc : Canonical v)
    (hv : v.toNat < 0xffffffffe0000000) (hroom : w.heap.map.length ≤ 2 ^ 16) :
    ¬ HeapPage w r v := by
  rintro ⟨b, n, hb, hn, -, hs⟩
  have hpage := path_eq_iff.mp (Paging.slotOf_eq_iff.mp hs).1
  have hnat := heapPage_toNat (Nat.lt_of_lt_of_le hb hroom) hn
  unfold pageOf PAGE_SIZE at hpage
  unfold Canonical at hc
  omega

/-- One page. -/
theorem mapPageTo_below {v : VAddr} {paddr : Nat} (h : Sound w R S)
    (hm : mapPageTo w w.kernel.root v paddr ATTR_NOEXEC = some w') (hv : Gap v)
    (hroom : w'.heap.map.length ≤ 2 ^ 16) :
    Sound w' R S ∧ w'.kernel = w.kernel ∧ (pte w w.kernel.root v).p = false ∧
      (∀ u, Canonical u → pageOf u = pageOf v →
        (pte w' w.kernel.root u).p = true ∧
          (pte w' w.kernel.root u).base = paddr / 4096 % 2 ^ 40) ∧
      ∀ u, Canonical u → u.toNat < 0xffffffffe0000000 → pageOf u ≠ pageOf v →
        pte w' w.kernel.root u = pte w w.kernel.root u := by
  have hsteady := mapPageTo_steady h h.kernel hm
  have hcv : Canonical v := .inr (by have := hv.1; omega)
  obtain ⟨e, he, hview⟩ := mapPageTo_view h h.kernel hm
  obtain ⟨hp, rfl⟩ := he (not_heapPage_of_below hcv hv.2 hroom)
  refine ⟨hsteady.sound, hsteady.ext.kernel, hp, fun u hu hpage => ?_, fun u hu hlt hpage => ?_⟩
  · have hlt : u.toNat < 0xffffffffe0000000 := by
      have hv2 := hv.2
      unfold pageOf PAGE_SIZE at hpage
      omega
    rw [hview u h.kernel (not_heapPage_of_below hu hlt hroom),
      if_pos ((hu.slotOf_eq_iff hcv).mpr hpage)]
    exact ⟨rfl, rfl⟩
  · rw [hview u h.kernel (not_heapPage_of_below hu hlt hroom),
      if_neg fun hs => hpage ((hu.slotOf_eq_iff hcv).mp hs)]

/-- All of them. -/
theorem mapAll_spec (h : Sound w R S) (hm : mapAll w l = some w') (hl : ∀ x ∈ l, Gap x.1)
    (hroom : w'.heap.map.length ≤ 2 ^ 16) :
    w.heap.map.length ≤ w'.heap.map.length ∧ w'.kernel = w.kernel ∧
      (∀ x ∈ l, (pte w w.kernel.root x.1).p = false) ∧
      (∀ x ∈ l, ∀ u, Canonical u → pageOf u = pageOf x.1 →
        (pte w' w.kernel.root u).p = true ∧
          (pte w' w.kernel.root u).base = x.2 / 4096 % 2 ^ 40) ∧
      ∀ u, Canonical u → u.toNat < 0xffffffffe0000000 → (∀ x ∈ l, pageOf u ≠ pageOf x.1) →
        pte w' w.kernel.root u = pte w w.kernel.root u := by
  induction l generalizing w with
  | nil =>
    cases hm
    exact ⟨Nat.le_refl _, rfl, fun x hx => absurd hx not_mem_nil,
      fun x hx => absurd hx not_mem_nil, fun _ _ _ _ => rfl⟩
  | cons y l ih =>
    obtain ⟨w1, hfirst, hm⟩ := of_bind hm
    have h1 := (mapPageTo_steady h h.kernel hfirst).sound
    have hl' : ∀ x ∈ l, Gap x.1 := fun x hx => hl x (mem_cons_of_mem y hx)
    have hgap := hl y mem_cons_self
    obtain ⟨hlen, hk, hfree, hrest, hsame⟩ := ih h1 hm hl'
    have hlen1 := (mapPageTo_steady h h.kernel hfirst).length_le
    obtain ⟨-, hk1, hp, hnew, hother⟩ := mapPageTo_below h hfirst hgap (hlen.trans hroom)
    rw [hk1] at hk hfree hrest hsame
    -- a page that comes again would have been present
    have hapart : ∀ x ∈ l, pageOf x.1 ≠ pageOf y.1 := by
      intro x hx hpage
      have hcx : Canonical x.1 := .inr (by have := (hl' x hx).1; omega)
      have hpresent := (hnew x.1 hcx hpage).1
      rw [hfree x hx] at hpresent
      cases hpresent
    refine ⟨hlen1.trans hlen, hk, fun x hx => ?_, fun x hx u hu hpage => ?_, fun u hu hlt hpages => ?_⟩
    · rcases mem_cons.mp hx with rfl | hx
      · exact hp
      · have hcx : Canonical x.1 := .inr (by have := (hl' x hx).1; omega)
        rw [← hother x.1 hcx (hl' x hx).2 (hapart x hx)]
        exact hfree x hx
    · rcases mem_cons.mp hx with rfl | hx
      · have hlt : u.toNat < 0xffffffffe0000000 := by
          have hgap2 := hgap.2
          unfold pageOf PAGE_SIZE at hpage
          omega
        rw [hsame u hu hlt fun z hz hzu => hapart z hz (hzu.symm.trans hpage)]
        exact hnew u hu hpage
      · exact hrest x hx u hu hpage
    · obtain ⟨hy, hl0⟩ := List.forall_mem_cons.mp hpages
      rw [hsame u hu hlt hl0, hother u hu hlt hy]

/-- Pages that are not there can be mapped, while there are blocks for tables. -/
theorem mapAll_total {P : Nat → List Bool → Prop} {N c : Nat}
    (h : Stock P R S N (c + 8 * l.length) w) (hpool : w.heap.pool.length = 16)
    (hl : ∀ x ∈ l, Gap x.1 ∧ (pte w w.kernel.root x.1).p = false)
    (hapart : l.Pairwise fun x y => pageOf y.1 ≠ pageOf x.1) :
    ∃ w', mapAll w l = some w' ∧ Stock P R S N c w' := by
  induction l generalizing w with
  | nil => exact ⟨w, rfl, h⟩
  | cons y l ih =>
    obtain ⟨hy, hapart⟩ := List.pairwise_cons.mp hapart
    obtain ⟨⟨hgap, hp⟩, hl⟩ := List.forall_mem_cons.mp hl
    have hlow := hgap.1
    have hhigh := hgap.2
    rw [length_cons] at h
    have haccepts : Accepts y.1 ATTR_NOEXEC :=
      ⟨fun hc => by omega, fun hc => absurd hc.2 (by decide), by decide⟩
    have hheap : Apart N w w.kernel.root y.1 := by
      intro b n hb hn hs
      have hb' := Nat.lt_of_lt_of_le hb h.limit
      have hpage := path_eq_iff.mp (Paging.slotOf_eq_iff.mp hs).1
      unfold pageOf PAGE_SIZE at hpage
      rw [heapPage_toNat hb' hn] at hpage
      omega
    obtain ⟨w1, hmap, hst, hpool1⟩ := mapPageTo_total (c := c + 8 * l.length) y.2
      (h.mono (by omega)) (by omega) h.ready.sound.kernel haccepts hp hheap
    have hroom := hst.blocks
    have hlimit := hst.limit
    obtain ⟨-, hk, -, -, hother⟩ := mapPageTo_below h.ready.sound hmap hgap (by omega)
    obtain ⟨w', hrest, hst'⟩ := ih hst hpool1 (fun x hx => by
      have hx' := hl x hx
      have hlow := hx'.1.1
      refine ⟨hx'.1, ?_⟩
      rw [hk, hother x.1 (.inr (by omega)) hx'.1.2 (hy x hx)]
      exact hx'.2) hapart
    refine ⟨w', ?_, hst'⟩
    rw [mapAll, foldlM_cons, hmap]
    exact hrest

end Mapping

/-! ## Where the module is -/

def modSize (m : Mem) (mod : Nat) : Nat := modEnd m mod - modStart m mod

/-- The address at which byte `k` of the module should be. -/
def byteAddr (k : Nat) : VAddr := stackBase + BitVec.ofNat 64 k

/-- Where an access goes. -/
def physAddr (w : World) (v : VAddr) : Nat :=
  (pte w w.kernel.root v).base * 4096 + v.toNat % 4096

/-- The module is where it is read: its bytes are found from the stack base on, where
`readArchive` starts, its frames are reserved, and nothing else is. -/
structure Placed (m : Mem) (tags : List Nat) (mod : Nat) (mem mem' : Memory) (w w' : World)
    (root : Option VAddr) : Prop where
  start : root = some stackBase
  bytes : ∀ k < modSize m mod, (pte w' w'.kernel.root (byteAddr k)).p = true ∧
    physAddr w' (byteAddr k) = modStart m mod + k
  pages : ∀ v, Canonical v → v.toNat < 0xffffffffe0000000 →
    (∀ k < modSize m mod, pageOf v ≠ pageOf (byteAddr k)) →
      pte w' w'.kernel.root v = pte w w.kernel.root v
  reserved : ∀ f, (moduleRange m mod).Touches f → Used mem'.frames f
  frames : ∀ f, Used mem'.frames f → Used mem.frames f ∨ ∃ r ∈ ranges m tags, r.Touches f

section Placed

variable {m : Mem} {a n mod : Nat} {tags : List Nat} {mem mem' : Memory} {w w' : World}
  {R : Nat → Prop} {S : Nat} {root : Option VAddr}

theorem byteAddr_toNat {k : Nat} (hk : k < 0x10000000) :
    (byteAddr k).toNat = 0xffffffffd0000000 + k := by
  have hbase : stackBase.toNat = 0xffffffffd0000000 := rfl
  rw [byteAddr, BitVec.toNat_add, BitVec.toNat_ofNat]
  omega

theorem mem_modulePages {start count : Nat} {x : VAddr × Nat} :
    x ∈ modulePages start count ↔ ∃ i < count, x = (byteAddr (i * 4096), start + i * 4096) := by
  rw [modulePages, mem_map]
  constructor
  · rintro ⟨i, hi, rfl⟩
    exact ⟨i, List.mem_range.mp hi, rfl⟩
  · rintro ⟨i, hi, rfl⟩
    exact ⟨i, List.mem_range.mpr hi, rfl⟩

theorem handle_eq (hf : Firmware m a n tags) (hmod : tags.filter (tagType m · = 3) = [mod]) :
    handle m a n w =
      (mapAll w (modulePages (modStart m mod) ((modSize m mod + 4095) / 4096))).bind
        fun w => some (w, some stackBase) := by
  have htype : tagType m mod = 3 := by
    have hmem : mod ∈ tags.filter (tagType m · = 3) := hmod ▸ List.mem_singleton_self mod
    exact of_decide_eq_true (List.mem_filter.mp hmem).2
  rw [handle, hf.chain.handleLoop_eq hf.length_lt, foldlM_handleTag, hmod, foldlM_cons,
    handleTag, if_pos htype, handleModule_eq]
  exact Option.bind_fun_some _

/-- Byte `k` is in the page of the module that the loop comes to in round `k / 4096`, at the same
offset as in the page of its address. -/
theorem handle_bytes (hs : Sound w R S) (hf : Firmware m a n tags)
    (hmod : tags.filter (tagType m · = 3) = [mod]) (hgap : modSize m mod ≤ 0x10000000)
    (hh : handle m a n w = some (w', root)) (hroom : w'.heap.map.length ≤ 2 ^ 16) :
    root = some stackBase ∧
      (∀ k < modSize m mod, (pte w' w'.kernel.root (byteAddr k)).p = true ∧
        physAddr w' (byteAddr k) + modStart m mod % 4096 = modStart m mod + k) ∧
      ∀ v, Canonical v → v.toNat < 0xffffffffe0000000 →
        (∀ k < modSize m mod, pageOf v ≠ pageOf (byteAddr k)) →
          pte w' w'.kernel.root v = pte w w.kernel.root v := by
  rw [handle_eq hf hmod] at hh
  obtain ⟨w1, hmap, hh⟩ := of_bind hh
  obtain ⟨rfl, rfl⟩ := Prod.mk.inj (Option.some.inj hh)
  have hstart : modStart m mod < 2 ^ 32 := readLE_lt m 4 _
  obtain ⟨-, hk, -, hnew, hsame⟩ := mapAll_spec hs hmap (fun x hx => by
    obtain ⟨i, hi, rfl⟩ := mem_modulePages.mp hx
    rw [Gap, byteAddr_toNat (by omega)]
    omega) hroom
  refine ⟨rfl, fun k hklt => ?_, fun v hc hv hpages => ?_⟩
  · have hnat := byteAddr_toNat (k := k) (by omega)
    have hpage : pageOf (byteAddr k) = pageOf (byteAddr (k / 4096 * 4096)) := by
      unfold pageOf PAGE_SIZE
      rw [hnat, byteAddr_toNat (by omega)]
      omega
    obtain ⟨hp, hbase⟩ := hnew _ (mem_modulePages.mpr ⟨k / 4096, by omega, rfl⟩) (byteAddr k)
      (.inr (by omega)) hpage
    rw [hk]
    refine ⟨hp, ?_⟩
    rw [physAddr, hk]
    omega
  · rw [hk]
    refine hsame v hc hv fun x hx => ?_
    obtain ⟨i, hi, rfl⟩ := mem_modulePages.mp hx
    exact hpages (i * 4096) (by omega)

/-- **When the module is where it is read**: if and only if it starts with a page. -/
theorem placed_iff (hs : Sound w R S) (hf : Firmware m a n tags)
    (hmod : tags.filter (tagType m · = 3) = [mod]) (hlt : modStart m mod < modEnd m mod)
    (hgap : modSize m mod ≤ 0x10000000) (hprep : prepareMemory m a n mem = some mem')
    (hh : handle m a n w = some (w', root)) (hroom : w'.heap.map.length ≤ 2 ^ 16) :
    Placed m tags mod mem mem' w w' root ↔ modStart m mod % 4096 = 0 := by
  obtain ⟨hroot, hbytes, hpages⟩ := handle_bytes hs hf hmod hgap hh hroom
  constructor
  · intro hplaced
    have hpos : 0 < modSize m mod := Nat.sub_pos_of_lt hlt
    have hoff := (hbytes 0 hpos).2
    rw [(hplaced.bytes 0 hpos).2] at hoff
    omega
  · intro haligned
    rw [prepareMemory_eq hf] at hprep
    obtain ⟨mem₁, hmark, hprep⟩ := bind_eq_some_iff.mp hprep
    obtain ⟨-, hprep⟩ := assert_bind_eq_some.mp hprep
    cases hprep
    obtain ⟨-, -, hused, -⟩ := markAll_spec hmark
    have hmem : mod ∈ tags.filter (tagType m · = 3) := hmod ▸ List.mem_singleton_self mod
    obtain ⟨hin, htype⟩ := List.mem_filter.mp hmem
    have hrange : moduleRange m mod ∈ ranges m tags := by
      refine List.mem_flatMap.mpr ⟨mod, hin, ?_⟩
      rw [tagRanges, if_pos (of_decide_eq_true htype)]
      exact List.mem_singleton_self _
    refine ⟨hroot, fun k hk => ?_, hpages, fun f htouch => ?_, fun f hf => ?_⟩
    · obtain ⟨hp, hoff⟩ := hbytes k hk
      exact ⟨hp, by omega⟩
    · -- nothing is left out of the marks of a range that starts with a page
      have hend : modEnd m mod < 2 ^ 32 := readLE_lt m 4 _
      have hlen : (moduleRange m mod).length + 0xfff < 2 ^ 64 := by
        show modEnd m mod - modStart m mod + 0xfff < 2 ^ 64
        omega
      rcases (Range.touches_iff hlen).mp htouch with hmarks | ⟨-, -, hspill⟩
      · exact (hused f).mpr (.inr (List.mem_flatMap.mpr ⟨_, hrange, hmarks⟩))
      · unfold Range.pages at hspill
        rw [Nat.mod_eq_of_lt hlen] at hspill
        have hbase : (moduleRange m mod).base % 0x1000 = 0 := haligned
        omega
    · refine ((hused f).mp hf).imp id fun hmarks => ?_
      obtain ⟨r, hr, hfr⟩ := List.mem_flatMap.mp hmarks
      exact ⟨r, hr, Range.touches_of_marks hfr⟩

/-- A machine with 128 MB, and a module of a few bytes in the page at 3 MB. -/
def moduleMap (offset : UInt8) : Mem := fun x =>
  ([72, 0, 0, 0, 0, 0, 0, 0,
    6, 0, 0, 0, 40, 0, 0, 0, 24, 0, 0, 0, 0, 0, 0, 0,
    0, 0, 0, 0, 0, 0, 0, 0, 0, 0, 0, 8, 0, 0, 0, 0, 1, 0, 0, 0, 0, 0, 0, 0,
    3, 0, 0, 0, 16, 0, 0, 0, offset, 0, 0x30, 0, 16, 0, 0x30, 0,
    0, 0, 0, 0, 8] : List UInt8).getD (x - 0x1000) 0

theorem moduleMap_firmware {offset : UInt8} (h : offset = 0 ∨ offset = 4) :
    Firmware (moduleMap offset) 0x1000 72 [0x1008, 0x1030] := by
  obtain rfl | rfl := h
  all_goals exact
    { aligned := by decide
      inside := by decide
      size := by decide
      large := by decide
      chain := ⟨rfl, by decide, by decide, by decide, rfl, by decide, by decide, by decide,
        by decide, by decide, by decide⟩
      whole := by decide
      bounded := by decide
      apart := by decide
      modules := by decide }

theorem smallKernel_gap : Gap (byteAddr (0 * 4096)) ∧
    (pte smallKernel smallKernel.kernel.root (byteAddr (0 * 4096))).p = false :=
  ⟨⟨by decide, by decide⟩, by decide⟩

theorem moduleMap_handled {offset : UInt8} (h : offset = 0 ∨ offset = 4) :
    ∃ mem' w' root, prepareMemory (moduleMap offset) 0x1000 72 ⟨[], 0⟩ = some mem' ∧
      handle (moduleMap offset) 0x1000 72 smallKernel = some (w', root) ∧
      w'.heap.map.length ≤ 2 ^ 16 := by
  have hf := moduleMap_firmware h
  have hmod : [0x1008, 0x1030].filter (tagType (moduleMap offset) · = 3) = [0x1030] := by
    obtain rfl | rfl := h <;> decide
  have hranges : (ranges (moduleMap offset) [0x1008, 0x1030]).flatMap Range.marks = [0x300] := by
    obtain rfl | rfl := h <;> decide
  have hcount : (modSize (moduleMap offset) 0x1030 + 4095) / 4096 = 1 := by
    obtain rfl | rfl := h <;> decide
  have hmap : ∃ t ∈ [0x1008, 0x1030], tagType (moduleMap offset) t = 6 :=
    ⟨0x1008, mem_cons_self, by obtain rfl | rfl := h <;> decide⟩
  obtain ⟨mem', hmark⟩ : ∃ mem', markAll ⟨[], 0⟩ [0x300] = some mem' :=
    markAll_total (List.nodup_singleton _) fun f _ => by simp [Used]
  have hone : (modulePages (modStart (moduleMap offset) 0x1030) 1).length = 1 := by
    rw [modulePages, List.length_map, List.length_range]
  obtain ⟨w', hall, hst'⟩ := mapAll_total
    (l := modulePages (modStart (moduleMap offset) 0x1030) 1)
    (Pool.smallKernel_stock.mono (by rw [hone])) rfl (fun x hx => by
      obtain ⟨i, hi, rfl⟩ := mem_modulePages.mp hx
      obtain rfl := Nat.lt_one_iff.mp hi
      exact smallKernel_gap)
    (List.pairwise_singleton _ _)
  refine ⟨mem', w', some stackBase, ?_, ?_, ?_⟩
  · rw [prepareMemory_eq hf, hranges, hmark, bind_some, assert_pos hmap, bind_some]
  · rw [handle_eq hf hmod, hcount, hall, bind_some]
  · have hroom := hst'.blocks
    have hlimit := hst'.limit
    omega

/-- A module that starts with a page. -/
theorem placed_iff_aligned : ∃ mem' w' root,
    handle (moduleMap 0) 0x1000 72 smallKernel = some (w', root) ∧
      Placed (moduleMap 0) [0x1008, 0x1030] 0x1030 ⟨[], 0⟩ mem' smallKernel w' root := by
  obtain ⟨mem', w', root, hprep, hh, hroom⟩ := moduleMap_handled (.inl rfl)
  exact ⟨mem', w', root, hh, (placed_iff smallKernel_sound (moduleMap_firmware (.inl rfl))
    (by decide) (by decide) (by decide) hprep hh hroom).mpr (by decide)⟩

/-- A module that starts four bytes into a page is read from four bytes before its start. -/
theorem module_misplaced : ∃ mem' w' root,
    prepareMemory (moduleMap 4) 0x1000 72 ⟨[], 0⟩ = some mem' ∧
      handle (moduleMap 4) 0x1000 72 smallKernel = some (w', root) ∧
      modStart (moduleMap 4) 0x1030 = 0x300004 ∧ physAddr w' stackBase = 0x300000 ∧
      ¬ Placed (moduleMap 4) [0x1008, 0x1030] 0x1030 ⟨[], 0⟩ mem' smallKernel w' root := by
  obtain ⟨mem', w', root, hprep, hh, hroom⟩ := moduleMap_handled (.inr rfl)
  have hmod : [0x1008, 0x1030].filter (tagType (moduleMap 4) · = 3) = [0x1030] := by decide
  obtain ⟨-, hbytes, -⟩ := handle_bytes smallKernel_sound (moduleMap_firmware (.inr rfl))
    hmod (by decide) hh hroom
  have hstart : modStart (moduleMap 4) 0x1030 = 0x300004 := by decide
  have hsize : 0 < modSize (moduleMap 4) 0x1030 := by decide
  have hzero : byteAddr 0 = stackBase := BitVec.add_zero _
  have hfirst := (hbytes 0 hsize).2
  rw [hzero, hstart] at hfirst
  refine ⟨mem', w', root, hprep, hh, hstart, by omega, fun hplaced => ?_⟩
  have hphys := (hplaced.bytes 0 hsize).2
  rw [hzero, hstart] at hphys
  omega

end Placed

end Flix.Boot

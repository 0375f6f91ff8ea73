import Flix.Boot.Started
import Flix.Paging.HardwareWalk

/-!
# From the first directory on

The kernel directory and the directories of processes, from `initKernelDirectory` on. In
every state the entries of the tables lead the processor where the pointers lead the
kernel, provided that nobody meddles with the addresses of the page heap: a page of a block
is not unmapped by hand, and no page is mapped into one of the 2 MB areas of the blocks while
a table for it is still to come.

Without the first condition the kernel can cut itself off from its own tables. The
processor would not notice, but the kernel would fault as soon as it writes to the table.
-/

namespace Flix.Boot.Directories

open Function Radix Runs Paging

structure State where
  world : World
  /-- The directories of processes. -/
  dirs : List PageDirectory

inductive Act where
  | mapPageTo (r : Nat) (v : VAddr) (paddr attr : Nat)
  | mapPage (r : Nat) (v : VAddr) (attr : Nat)
  | mapRange (r : Nat) (v : VAddr) (attr n : Nat)
  | unmapPage (r : Nat) (v : VAddr)
  | handleFault (r : Nat) (v : VAddr)
  | mapKernel
  | unmapUserSpace (r : Nat)
  /-- Somebody reserves a frame, as for a module that the boot loader has put there. -/
  | setPageUsed (f : Nat)

/-- All directories, with what `CR3` gets for them. -/
def State.directories (s : State) : List PageDirectory := s.world.kernel :: s.dirs

def State.isDir (s : State) (r : Nat) : Prop := ∃ d ∈ s.directories, d.root = r

def State.cr3 (s : State) (r f : Nat) : Prop := (⟨r, f⟩ : PageDirectory) ∈ s.directories

/-- `unmapUserSpace`. Where it is the kernel directory that is swapped, the new one takes its place
before the old one goes. -/
def unmapUserSpace (s : State) (r : Nat) : Option State :=
  if r = s.world.kernel.root then do
    let (w, pd) ← Paging.mapKernel s.world
    let w ← (dismiss { w with kernel := pd } r).result
    some ⟨w, s.dirs.filter fun d => d.root ≠ r⟩
  else do
    let (w, pd) ← (Paging.unmapUserSpace s.world r : Traced Call (World × PageDirectory)).result
    some ⟨w, pd :: s.dirs.filter fun d => d.root ≠ r⟩

def step (s : State) : Act → Option State
  | .mapPageTo r v paddr attr => do
      let w ← Paging.mapPageTo s.world r v paddr attr
      some { s with world := w }
  | .mapPage r v attr => do
      let (w, _) ← Paging.mapPage s.world r v attr
      some { s with world := w }
  | .mapRange r v attr n => do
      let w ← Paging.mapRange s.world r v attr n
      some { s with world := w }
  | .unmapPage r v => do
      let (w, _) ← Paging.unmapPage s.world r v
      some { s with world := w }
  | .handleFault r v => do
      let (w, _) ← Paging.handleFault s.world r v
      some { s with world := w }
  | .mapKernel => do
      let (w, pd) ← Paging.mapKernel s.world
      some ⟨w, pd :: s.dirs⟩
  | .unmapUserSpace r => unmapUserSpace s r
  | .setPageUsed f => do
      let frames ← Paging.setPageUsed s.world.frames f
      some { s with world := { s.world with frames := frames } }

/-- The page is not one of a block of the page heap. -/
def OffHeap (w : World) (v : VAddr) : Prop :=
  ∀ b < max 16 w.heap.map.length, ∀ n < 2, pageOf v % 2 ^ 36 ≠ pageOf (heapPage b n) % 2 ^ 36

/-- The directory is there, and the addresses of the page heap are left alone. -/
def Guard (s : State) : Act → Prop
  | .mapPageTo r v paddr attr => s.isDir r ∧
      ∀ s', step s (.mapPageTo r v paddr attr) = some s' → Mappable s.world s'.world r v
  | .mapPage r v attr => s.isDir r ∧
      ∀ s', step s (.mapPage r v attr) = some s' → Mappable s.world s'.world r v
  | .mapRange r v attr n => s.isDir r ∧ ∀ s', step s (.mapRange r v attr n) = some s' →
      ∀ i < n, Mappable s.world s'.world r (v + BitVec.ofNat 64 (i * 0x1000))
  | .unmapPage r v => s.isDir r ∧ OffHeap s.world v
  | .handleFault r _ | .unmapUserSpace r => s.isDir r
  | .mapKernel | .setPageUsed _ => True

/-- A frame that is mapped by hand is the caller's: it is marked as used, and mapped nowhere. -/
def OwnFrame (s : State) : Act → Prop
  | .mapPageTo _ _ paddr attr => attr.testBit 3 = true ∨
      ∃ f, paddr = f * PAGE_SIZE ∧ Used s.world.frames f ∧
        ∀ r v, s.isDir r → (pte s.world r v).p = true → (pte s.world r v).base ≠ f
  | _ => True

/-! ## The invariant -/

variable {s s' : State} {a : Act}

structure Inv (s : State) : Prop where
  wired : Wired s.isDir s.cr3 2 s.world
  idle : s.world.heap.allocating = false

theorem Inv.of_wired {R : Nat → Prop} {C : Nat → Nat → Prop} (h : Wired R C 2 s.world)
    (hidle : s.world.heap.allocating = false) (hC : ∀ r f, s.cr3 r f ↔ C r f) : Inv s := by
  have hR : s.isDir = R := by
    funext r
    refine propext ⟨fun hr => ?_, fun hr => ?_⟩
    · obtain ⟨d, hd, rfl⟩ := hr
      exact (h.cr3 ((hC _ _).mp hd)).1
    · obtain ⟨f, hf⟩ := h.roots hr
      exact ⟨⟨r, f⟩, (hC r f).mpr hf, rfl⟩
  have hcr3 : s.cr3 = C := by
    funext r f
    exact propext (hC r f)
  rw [← hR, ← hcr3] at h
  exact ⟨h, hidle⟩

variable {w : World} {r : Nat}

theorem Inv.keep (hk : w.kernel = s.world.kernel) (h : Wired s.isDir s.cr3 2 w)
    (hidle : w.heap.allocating = false) : Inv { s with world := w } := by
  refine .of_wired h hidle fun r f => ?_
  rw [State.cr3, State.cr3, State.directories, State.directories, hk]

theorem Inv.of_booted (h : Booted w) : Inv ⟨w, []⟩ := by
  refine .of_wired h.wired h.idle fun r f => ?_
  rw [State.cr3, State.directories, mem_singleton]
  constructor
  · intro hc
    rw [← h.root, ← hc]
    exact ⟨rfl, rfl⟩
  · intro hc
    rw [hc.1, hc.2, ← h.root]

/-- `unmapUserSpace` in two parts: there is a new directory, and then the old one goes, which is
not the kernel's by then. -/
structure Swaps (s s' : State) (r : Nat) (pd : PageDirectory) (w : World) : Prop where
  wired : Wired (fun x => s.isDir x ∨ x = pd.root) (withRoot s.cr3 pd) 2 w
  idle : w.heap.allocating = false
  owned : Owned s.isDir s.world → Owned (fun x => s.isDir x ∨ x = pd.root) w
  other : r ≠ w.kernel.root
  result : (dismiss w r).result = some s'.world
  cr3 : s'.world.kernel = w.kernel → ∀ x f, s'.cr3 x f ↔ withRoot s.cr3 pd x f ∧ x ≠ r

theorem mem_kept {l : List PageDirectory} {x f : Nat} :
    (⟨x, f⟩ : PageDirectory) ∈ l.filter (fun d => d.root ≠ r) ↔
      (⟨x, f⟩ : PageDirectory) ∈ l ∧ x ≠ r := by
  rw [List.mem_filter, decide_eq_true_iff]

theorem mk_eq_iff {pd : PageDirectory} {x f : Nat} :
    (⟨x, f⟩ : PageDirectory) = pd ↔ x = pd.root ∧ f = pd.base := by
  rw [PageDirectory.mk.injEq]

theorem unmapUserSpace_swaps (h : Inv s) (hr : s.isDir r)
    (hs : unmapUserSpace s r = some s') : ∃ pd w, Swaps s s' r pd w := by
  have hnew : ∀ {w pd}, Paging.mapKernel s.world = some (w, pd) → r ≠ pd.root := by
    intro w pd hm hc
    have hlive := h.wired.sound.rootLive hr
    rw [hc, (mapKernel_spec h.wired.sound hm).new] at hlive
    cases hlive
  unfold unmapUserSpace at hs
  split at hs
  · rename_i hk
    obtain ⟨⟨w, pd⟩, hm, hs⟩ := of_bind hs
    obtain ⟨w', hdismiss, hs⟩ := of_bind hs
    cases hs
    obtain ⟨hw, hidle⟩ := h.wired.mapKernel h.idle hm
    have hmap := mapKernel_spec h.wired.sound hm
    have howned : Owned s.isDir s.world → Owned (fun x => s.isDir x ∨ x = pd.root) w :=
      fun ho => ho.mapKernel h.wired.sound hmap
    refine ⟨pd, { w with kernel := pd }, hw.adopt (.inr rfl), hidle, howned, hnew hm, hdismiss,
      fun hkernel x f => ?_⟩
    have hpd : x = pd.root → x ≠ r := fun hx hc => hnew hm (hc.symm.trans hx)
    have hold : x = s.world.kernel.root → x = r := fun hx => hx.trans hk.symm
    rw [withRoot, State.cr3, State.cr3, State.directories, State.directories, mem_cons,
      mem_cons, mem_kept, hkernel, mk_eq_iff, mk_eq_iff]
    constructor
    · intro hc
      rcases hc with hx | ⟨hx, hne⟩
      · exact ⟨.inr hx, hpd hx.1⟩
      · exact ⟨.inl (.inr hx), hne⟩
    · intro ⟨hc, hne⟩
      rcases hc with (hx | hx) | hx
      · exact absurd (hold hx.1) hne
      · exact .inr ⟨hx, hne⟩
      · exact .inl hx
  · rename_i hk
    obtain ⟨⟨w', pd⟩, hres, hs⟩ := of_bind hs
    cases hs
    obtain ⟨w, hm, hdismiss⟩ := unmapUserSpace_result hres
    obtain ⟨hw, hidle⟩ := h.wired.mapKernel h.idle hm
    have hmap := mapKernel_spec h.wired.sound hm
    have hsame : w.kernel = s.world.kernel := hmap.ext.kernel
    refine ⟨pd, w, hw, hidle, fun ho => ho.mapKernel h.wired.sound hmap, ?_, hdismiss,
      fun hkernel x f => ?_⟩
    · rw [hsame]
      exact hk
    · have hkernel : w'.kernel = s.world.kernel := hkernel.trans hsame
      have hpd : x = pd.root → x ≠ r := fun hx hc => hnew hm (hc.symm.trans hx)
      have hold : x = s.world.kernel.root → x ≠ r := fun hx hc => hk (hc.symm.trans hx)
      rw [withRoot, State.cr3, State.cr3, State.directories, State.directories, mem_cons,
        mem_cons, mem_cons, mem_kept, hkernel, mk_eq_iff, mk_eq_iff]
      constructor
      · intro hc
        rcases hc with hx | hx | ⟨hx, hne⟩
        · exact ⟨.inl (.inl hx), hold hx.1⟩
        · exact ⟨.inr hx, hpd hx.1⟩
        · exact ⟨.inl (.inr hx), hne⟩
      · intro ⟨hc, hne⟩
        rcases hc with (hx | hx) | hx
        · exact .inl hx
        · exact .inr (.inr ⟨hx, hne⟩)
        · exact .inr (.inl hx)

/-! ## Steps -/

/-- Every step keeps the tables wired. -/
theorem Inv.step (h : Inv s) (hg : Guard s a) (hs : step s a = some s') : Inv s' := by
  have hsound := h.wired.sound
  cases a with
  | mapPageTo r v paddr attr =>
    have hclear := hg.2 s' hs
    obtain ⟨w, hm, hs⟩ := of_bind hs
    cases hs
    obtain ⟨hw, hidle⟩ := h.wired.mapAt h.idle hg.1 hm hclear
    exact .keep (mapPageTo_steady hsound hg.1 hm).ext.kernel hw hidle
  | mapPage r v attr =>
    have hclear := hg.2 s' hs
    obtain ⟨⟨w, x⟩, hm, hs⟩ := of_bind hs
    cases hs
    obtain ⟨hw, hidle⟩ := h.wired.mapPage h.idle hg.1 hm hclear
    exact .keep (mapPage_steady hsound hg.1 hm).ext.kernel hw hidle
  | mapRange r v attr n =>
    have hclear := hg.2 s' hs
    obtain ⟨w, hm, hs⟩ := of_bind hs
    cases hs
    obtain ⟨hw, hidle, hkernel⟩ := h.wired.mapRange h.idle hg.1 hm hclear
    exact .keep hkernel hw hidle
  | unmapPage r v =>
    obtain ⟨⟨w, x⟩, hu, hs⟩ := of_bind hs
    cases hs
    have hoff : ∀ {u}, InUse s.isDir s.world u →
        slotOf s.world.kernel.root (heapPage u 0) ≠ slotOf r v := by
      intro u hu hc
      refine hg.2 u ?_ 0 (by omega) (path_eq_iff.mp (slotOf_eq_iff.mp hc).1).symm
      rcases hu.used hsound with hlt | hused
      · exact hlt.trans_le (le_max_left ..)
      · exact (getElem?_lt hused).trans_le (le_max_right ..)
    obtain ⟨hw, t, e, rfl⟩ := h.wired.unmap hg.1 hoff hu
    exact .keep rfl hw h.idle
  | handleFault r v =>
    obtain ⟨⟨w, b⟩, hf, hs⟩ := of_bind hs
    cases hs
    refine .keep (handleFault_steady hsound hg hf).ext.kernel (h.wired.handleFault hg hf) ?_
    rcases handleFault_spec hsound hg hf with ⟨-, rfl, -⟩ | ⟨-, -, frames, f, -, hwrite, -, -⟩
    · exact h.idle
    · rw [hwrite.heap]
      exact h.idle
  | mapKernel =>
    obtain ⟨⟨w, pd⟩, hm, hs⟩ := of_bind hs
    cases hs
    obtain ⟨hw, hidle⟩ := h.wired.mapKernel h.idle hm
    have hsame : w.kernel = s.world.kernel := (mapKernel_spec hsound hm).ext.kernel
    refine .of_wired hw hidle fun x f => ?_
    rw [withRoot, State.cr3, State.cr3, State.directories, State.directories, mem_cons,
      mem_cons, mem_cons, hsame, mk_eq_iff, mk_eq_iff]
    rw [or_assoc, or_comm (a := x = pd.root ∧ f = pd.base)]
  | unmapUserSpace r =>
    obtain ⟨pd, w, hswap⟩ := unmapUserSpace_swaps h hg hs
    have hr : s.isDir r ∨ r = pd.root := .inl hg
    obtain ⟨hw, hidle, hkernel⟩ := (hswap.wired.dismiss hr hswap.other).post hswap.result
    exact .of_wired hw (hidle.trans hswap.idle) (hswap.cr3 hkernel)
  | setPageUsed f =>
    obtain ⟨frames, -, hs⟩ := of_bind hs
    cases hs
    exact .keep rfl (h.wired.withFrames frames) h.idle

/-- The directories of the next state are among these. -/
theorem isDir_of_cr3 {R : Nat → Prop} {C : Nat → Nat → Prop} (h : Wired R C 2 s.world)
    (hC : ∀ r f, s.cr3 r f → C r f) (hr : s.isDir r) : R r := by
  obtain ⟨d, hd, rfl⟩ := hr
  exact (h.cr3 (hC _ _ hd)).1

theorem isDir_of_kernel (hk : w.kernel = s.world.kernel)
    (hr : State.isDir { s with world := w } r) : s.isDir r := by
  obtain ⟨d, hd, rfl⟩ := hr
  rw [State.directories, hk] at hd
  exact ⟨d, hd, rfl⟩

/-- Every step keeps the frames apart, if frames that are mapped by hand are the caller's. -/
theorem Inv.step_owned (h : Inv s) (ho : Owned s.isDir s.world) (hg : Guard s a) (hf : OwnFrame s a)
    (hs : Directories.step s a = some s') : Owned s'.isDir s'.world := by
  have hsound := h.wired.sound
  cases a with
  | mapPageTo r v paddr attr =>
    obtain ⟨w, hm, hs⟩ := of_bind hs
    cases hs
    have how : Owned s.isDir w := by
      rcases hf with hdefer | ⟨f, rfl, hused, hfree⟩
      · exact ho.mapPageTo_deferred hsound hg.1 hdefer hm
      · exact (ho.inHand hused hfree).mapPageTo_hand hsound hg.1 id hm
    exact how.mono (isDir_of_kernel (mapPageTo_steady hsound hg.1 hm).ext.kernel)
  | mapPage r v attr =>
    obtain ⟨⟨w, x⟩, hm, hs⟩ := of_bind hs
    cases hs
    exact (ho.mapPage hsound hg.1 hm).mono
      (isDir_of_kernel (mapPage_steady hsound hg.1 hm).ext.kernel)
  | mapRange r v attr n =>
    have hclear := hg.2 s' hs
    obtain ⟨w, hm, hs⟩ := of_bind hs
    cases hs
    obtain ⟨-, -, hkernel⟩ := h.wired.mapRange h.idle hg.1 hm hclear
    exact (ho.mapRange hsound hg.1 hm).mono (isDir_of_kernel hkernel)
  | unmapPage r v =>
    obtain ⟨⟨w, x⟩, hu, hs⟩ := of_bind hs
    cases hs
    obtain ⟨-, -, hwrite, -, hext⟩ := unmapPage_spec hsound hg.1 hu
    exact (ho.clear hwrite rfl).mono (isDir_of_kernel hext.kernel)
  | handleFault r v =>
    obtain ⟨⟨w, b⟩, hfault, hs⟩ := of_bind hs
    cases hs
    exact (ho.handleFault hsound hg hfault).mono
      (isDir_of_kernel (handleFault_steady hsound hg hfault).ext.kernel)
  | mapKernel =>
    obtain ⟨⟨w, pd⟩, hm, hs⟩ := of_bind hs
    cases hs
    have hmap := mapKernel_spec hsound hm
    refine (ho.mapKernel hsound hmap).mono fun {x} hx => ?_
    obtain ⟨d, hd, rfl⟩ := hx
    rw [State.directories, hmap.ext.kernel] at hd
    rcases mem_cons.mp hd with rfl | hd
    · exact .inl ⟨_, mem_cons_self, rfl⟩
    · rcases mem_cons.mp hd with rfl | hd
      · exact .inr rfl
      · exact .inl ⟨d, mem_cons_of_mem _ hd, rfl⟩
  | unmapUserSpace r =>
    obtain ⟨pd, w, hswap⟩ := unmapUserSpace_swaps h hg hs
    have hr : s.isDir r ∨ r = pd.root := .inl hg
    obtain ⟨hw, -, hkernel⟩ := (hswap.wired.dismiss hr hswap.other).post hswap.result
    refine (dismiss_owned hr hswap.other hswap.wired.sound (hswap.owned ho) hswap.result).mono ?_
    exact isDir_of_cr3 hw fun x f => (hswap.cr3 hkernel x f).mp
  | setPageUsed f =>
    obtain ⟨frames, hset, hs⟩ := of_bind hs
    cases hs
    exact (ho.setPageUsed hset).mono (isDir_of_kernel rfl)

/-! ## Runs -/

/-- The two ways through the tables are the same. -/
structure Agree (s : State) : Prop where
  /-- Above the last level a pointer is there exactly when the entry is present, and the entry then
  names the frame that the kernel directory has the first page of the table on. -/
  tables : ∀ {r p t n} (i : Nat), s.isDir r → follow s.world.tables r p = some t → p.length < 3 →
    s.world.tables t = some n → ((n.next i).isSome ↔ (n.entries i).p = true) ∧
      ∀ u, n.next i = some u → PageAt s.world u (n.entries i).base
  /-- The same for the roots. -/
  roots : ∀ d ∈ s.directories, PageAt s.world d.root d.base
  /-- In every memory in which the tables stand, the walk of the processor ends at the entry that
  `getPage` finds. -/
  walks : ∀ {mem} (v : VAddr), Shows s.isDir s.world mem → ∀ d ∈ s.directories,
    ∃ page, getEntry s.world.tables 0 3 d.root v = some page ∧
      hardwareWalk mem 3 d.base v = page.map (fun x => (frameOf s.world x.1, x.2)) ∧
      ∀ x ∈ page, s.world.entry x.1 x.2 = some (mem (frameOf s.world x.1) x.2)

theorem Inv.agree (h : Inv s) : Agree s := by
  refine ⟨fun {r p t n} i hr hp hlen hn => ⟨⟨fun hu => ?_, fun hpresent => ?_⟩, fun u hu => ?_⟩,
    fun d hd => (h.wired.cr3 hd).2, fun v hmem d hd => h.wired.hardwareWalk_eq hmem v hd⟩
  · obtain ⟨u, hu⟩ := isSome_iff_exists.mp hu
    exact (h.wired.names.entry hr hp hn hu).1
  · by_contra hnone
    rw [Bool.not_eq_true, Option.isSome_eq_false_iff, Option.isNone_iff_eq_none] at hnone
    rw [h.wired.sound.absent hr hp hn hlen hnone] at hpresent
    cases hpresent
  · exact (h.wired.names.entry hr hp hn hu).2

/-- **Hardware and software walks agree** in every state that is reached from the first directory,
if the addresses of the page heap are left alone. If moreover frames that are mapped by hand are the
caller's, and an entry can name every frame, there is a memory in which the tables stand: no two of
them are on the same frame. -/
theorem walks_agree {l : Layout} {w₀ : World} (h₀ : initKernelDirectory l = some w₀)
    (h : Reach step Guard ⟨w₀, []⟩ s) :
    Agree s ∧ (Reach step (fun s a => Guard s a ∧ OwnFrame s a) ⟨w₀, []⟩ s →
      s.world.frames.length ≤ 2 ^ 40 → ∃ mem, Shows s.isDir s.world mem) := by
  have hbooted := initKernelDirectory_spec h₀
  have hinv := Inv.of_booted hbooted
  refine ⟨(h.invariant hinv fun _ _ _ hi hg hs => hi.step hg hs).agree, fun h hb => ?_⟩
  have howned₀ : Owned (State.isDir ⟨w₀, []⟩) w₀ := by
    refine hbooted.owned.mono fun hr => ?_
    obtain ⟨d, hd, rfl⟩ := hr
    rw [mem_singleton.mp hd]
    exact hbooted.root
  obtain ⟨hi, ho⟩ := h.invariant (I := fun s => Inv s ∧ Owned s.isDir s.world) ⟨hinv, howned₀⟩
    fun _ _ _ hi hg hs => ⟨hi.1.step hg.1 hs, hi.1.step_owned hi.2 hg.1 hg.2 hs⟩
  exact hi.wired.shows ho hb

/-! ## A kernel of three pages -/

def threePages : Layout := ⟨1, 1, 1⟩

/-- A page below the page heap, where there is no table yet, and then a new directory. -/
theorem walks_agree_threePages : ∃ w₀ s, initKernelDirectory threePages = some w₀ ∧
    run step ⟨w₀, []⟩ [.mapPage 0 0xffffffffd0000000 5, .mapKernel] = some s ∧ Agree s ∧
      (s.world.frames.length ≤ 2 ^ 40 → ∃ mem, Shows s.isDir s.world mem) := by
  obtain ⟨w₀, h₀, hst⟩ := initKernelDirectory_started (l := threePages) (by decide)
  have hroot : State.isDir ⟨w₀, []⟩ 0 := ⟨w₀.kernel, mem_cons_self, hst.root⟩
  have hfree : (pte w₀ 0 0xffffffffd0000000).p = false := by
    by_contra hc
    have hmapped := hst.mapped ((Bool.not_eq_false _).mp hc)
    revert hmapped
    decide
  have hout : Pool.Outside 0xffffffffd0000000 := ⟨.inr (by decide), by decide⟩
  obtain ⟨w₁, a, hm, hstock, hpool, -⟩ := mapPage_total (c := 2) (hst.stock (by omega)) hst.enough
    rfl (show Accepts _ 5 from ⟨by decide, by decide, by decide⟩) hfree (hout.apart w₀ 0)
  obtain ⟨w, pd, hk⟩ := mapKernel_total hstock (by omega)
  have hs₁ : step ⟨w₀, []⟩ (.mapPage 0 0xffffffffd0000000 5) = some ⟨w₁, []⟩ := by
    rw [step, hm]
    rfl
  have hs : step ⟨w₁, []⟩ .mapKernel = some ⟨w, [pd]⟩ := by
    rw [step, hk]
    rfl
  have hg : Guard ⟨w₀, []⟩ (.mapPage 0 0xffffffffd0000000 5) := by
    refine ⟨hroot, fun s' _ => .inr fun b _ hc => ?_⟩
    have hpath : path 0xffffffffd0000000 = [511, 511, 128] := by decide
    rw [hpath, region] at hc
    simp only [List.cons.injEq, true_and, and_true] at hc
    omega
  have hg' : Guard ⟨w₁, []⟩ .mapKernel := trivial
  obtain ⟨hagree, hshows⟩ := walks_agree h₀ (.tail (.tail .start hg hs₁) hg' hs)
  refine ⟨w₀, ⟨w, [pd]⟩, h₀, ?_, hagree,
    hshows (.tail (.tail .start ⟨hg, trivial⟩ hs₁) ⟨hg', trivial⟩ hs)⟩
  simp only [run, hs₁, hs, bind_some]

/-- **The first page of a table can be unmapped**, by the kernel itself, and then the entry of the
table names a frame that the kernel directory does not map. -/
theorem table_cut_off : ∃ w₀ s n, initKernelDirectory threePages = some w₀ ∧
    step ⟨w₀, []⟩ (.unmapPage 0 (pageToPtr 1)) = some s ∧ s.world.kernel.root = 0 ∧
      s.world.tables 0 = some n ∧ n.next 511 = some 1 ∧ (n.entries 511).p = true ∧
      (pte s.world 0 (heapPage 1 0)).p = false ∧ ¬ PageAt s.world 1 (n.entries 511).base := by
  obtain ⟨w₀, h₀, -⟩ := initKernelDirectory_total (l := threePages) (by decide)
  have hbooted := initKernelDirectory_spec h₀
  have hsound := hbooted.wired.sound
  have hptr : pageToPtr 1 = heapPage 1 0 := by simp [heapPage]
  have hat := (hbooted.wired.static (b := 1) (by omega)).1
  rw [hbooted.root] at hat
  obtain ⟨⟨w, x⟩, hu⟩ := isSome_iff_exists.mp (unmapPage_isSome hsound rfl hat)
  obtain ⟨-, -, hwrite, hsound', hext⟩ := unmapPage_spec hsound rfl hu
  have hkernel : w.kernel.root = 0 := by rw [hext.kernel, hbooted.root]
  have hgone : (pte w 0 (heapPage 1 0)).p = false := by
    rw [hwrite.view (heapPage 1 0) rfl, if_pos rfl]
  -- the root has its pointer and its entry still
  have hsecond : follow w.tables 0 [511] = some 1 := hext.follow_eq hbooted.second
  obtain ⟨n, hn, hfollow⟩ := bind_eq_some_iff.mp hsecond
  obtain ⟨u, hnext, hu'⟩ := bind_eq_some_iff.mp hfollow
  cases hu'
  obtain ⟨t, ht, -, -, hw⟩ := unmapPage_eq hsound rfl hu
  have hnames : Names (PageAt w₀) (· = 0) w := by
    rw [hw]
    exact hbooted.wired.names.setEntry hsound rfl ht _ _
  obtain ⟨hpresent, -⟩ := hnames.entry (p := []) rfl rfl hn hnext
  have hlost : ∀ f, ¬ PageAt w 1 f := by
    intro f hc
    have hp := hc.1
    rw [hkernel, hgone] at hp
    cases hp
  refine ⟨w₀, ⟨w, []⟩, n, h₀, ?_, hkernel, hn, hnext, hpresent, hgone, hlost _⟩
  rw [step, hptr, hu]
  rfl

end Flix.Boot.Directories

import Flix.Exec.Execve
import Flix.Exec.Writes
import Flix.Paging.Mmap

/-!
# What is left in a frame

A frame goes from one process to the next as it is. `mapPage` and `handleFault` take it from
`getFreePage` and clear nothing. Of the pages of a program `exec` clears what the segments take,
and of its stack it writes the arguments.

Two runs are compared that differ in what the frames hold that the process does not have. As long
as it gets pages only from `exec`, and all of their bytes are written there, it cannot tell one
run from the other. A page fault on a deferred page is enough to tell them apart.
-/

namespace Flix.Exec.Residue

open Function Bytes Paging Fs Runs Traced

/-- What the frames hold: the bytes of a frame by their offset. -/
abbrev Store := Nat → Nat → UInt8

/-- A process: its directory in the world, and the memory. -/
structure Proc where
  world : World
  root : Nat
  store : Store

/-- What the process reads at an address. -/
def Proc.reads (s : Proc) (v : VAddr) : Option UInt8 :=
  if (pte s.world s.root v).p then some (s.store (pte s.world s.root v).base (v.toNat % 4096))
  else none

/-! ## Writes -/

/-- A byte is written through a directory. Where nothing is mapped the kernel stops. -/
def writeByte (w : World) (root : Nat) (st : Store) (a : Nat) (b : UInt8) : Option Store := do
  let e := pte w root (BitVec.ofNat 64 a)
  assert (e.p = true)
  some (update st e.base (update (st e.base) (a % 4096) b))

def writeBytes (w : World) (root : Nat) : Store → Nat → List UInt8 → Option Store
  | st, _, [] => some st
  | st, a, b :: bytes => do
      let st ← writeByte w root st a b
      writeBytes w root st (a + 1) bytes

/-- What `exec` has written, in the frames. -/
def replay (w : World) (root : Nat) (st : Store) (es : List Event) : Option Store :=
  es.foldlM (fun st e => match e with
    | .range _ _ => some st
    | .write start bytes _ => writeBytes w root st start bytes) st

/-- The address is one of those from `start` on. -/
def InChunk (start : Nat) (bytes : List UInt8) (v : VAddr) : Prop :=
  ∃ i < bytes.length, BitVec.ofNat 64 (start + i) = v

/-- The address is written in the event. -/
def Reaches : Event → VAddr → Prop
  | .range _ _, _ => False
  | .write start bytes _, v => InChunk start bytes v

section Writes

variable {w : World} {root : Nat} {st st₁ : Store}

/-- The place of a byte. -/
def At (w : World) (root : Nat) (v : VAddr) (f o : Nat) : Prop :=
  (pte w root v).base = f ∧ v.toNat % 4096 = o

theorem ofNat_offset (a : Nat) : (BitVec.ofNat 64 a).toNat % 4096 = a % 4096 := by
  rw [BitVec.toNat_ofNat]
  omega

/-- Where the same byte is written there is no difference any more. -/
theorem writeByte_same {a : Nat} {b : UInt8} (st' : Store)
    (h : writeByte w root st a b = some st₁) :
    ∃ st1', writeByte w root st' a b = some st1' ∧ ∀ f o,
      (st' f o = st f o ∨ At w root (BitVec.ofNat 64 a) f o) → st1' f o = st₁ f o := by
  obtain ⟨hp, h⟩ := of_assert h
  cases h
  refine ⟨_, assert_bind_eq_some.mpr ⟨hp, rfl⟩, fun f o hfo => ?_⟩
  by_cases hf : f = (pte w root (BitVec.ofNat 64 a)).base
  · subst hf
    simp only [update_self]
    by_cases ho : o = a % 4096
    · rw [ho, update_self, update_self]
    · rw [update_of_ne ho, update_of_ne ho]
      rcases hfo with hfo | ⟨-, hoff⟩
      · exact hfo
      · rw [ofNat_offset] at hoff
        exact absurd hoff.symm ho
  · rw [update_of_ne hf, update_of_ne hf]
    exact hfo.resolve_right fun hat => hf hat.1.symm

theorem writeBytes_same {bytes : List UInt8} {a : Nat} (st' : Store)
    (h : writeBytes w root st a bytes = some st₁) :
    ∃ st1', writeBytes w root st' a bytes = some st1' ∧ ∀ f o,
      (st' f o = st f o ∨ ∃ v, InChunk a bytes v ∧ At w root v f o) → st1' f o = st₁ f o := by
  induction bytes generalizing st st' a with
  | nil =>
    cases h
    refine ⟨st', rfl, fun f o hfo => hfo.resolve_right ?_⟩
    rintro ⟨v, ⟨i, hi, -⟩, -⟩
    exact absurd hi (Nat.not_lt_zero i)
  | cons b bytes ih =>
    obtain ⟨st2, hfirst, h⟩ := of_bind h
    obtain ⟨st2', hfirst', hsame⟩ := writeByte_same st' hfirst
    obtain ⟨st1', hrest', hsame'⟩ := ih st2' h
    refine ⟨st1', bind_eq_some_iff.mpr ⟨st2', hfirst', hrest'⟩, fun f o hfo => ?_⟩
    refine hsame' f o ?_
    rcases hfo with hfo | ⟨v, ⟨i, hi, rfl⟩, hat⟩
    · exact .inl (hsame f o (.inl hfo))
    · cases i with
      | zero => exact .inl (hsame f o (.inr hat))
      | succ i =>
        refine .inr ⟨_, ⟨i, Nat.lt_of_succ_lt_succ hi, ?_⟩, hat⟩
        rw [Nat.add_right_comm, Nat.add_assoc]

theorem replay_same {es : List Event} (st' : Store) (h : replay w root st es = some st₁) :
    ∃ st1', replay w root st' es = some st1' ∧ ∀ f o,
      (st' f o = st f o ∨ ∃ e ∈ es, ∃ v, Reaches e v ∧ At w root v f o) → st1' f o = st₁ f o := by
  induction es generalizing st st' with
  | nil =>
    cases h
    refine ⟨st', rfl, fun f o hfo => hfo.resolve_right ?_⟩
    rintro ⟨e, he, -⟩
    exact absurd he not_mem_nil
  | cons e es ih =>
    obtain ⟨st2, hfirst, h⟩ := of_bind h
    -- one event, and then the others
    obtain ⟨st2', hfirst', hsame⟩ : ∃ st2', (match e with
        | .range _ _ => some st'
        | .write start bytes _ => writeBytes w root st' start bytes) = some st2' ∧ ∀ f o,
        (st' f o = st f o ∨ ∃ v, Reaches e v ∧ At w root v f o) → st2' f o = st2 f o := by
      cases e with
      | range start size =>
        cases hfirst
        refine ⟨st', rfl, fun f o hfo => hfo.resolve_right ?_⟩
        rintro ⟨v, hv, -⟩
        exact hv
      | write start bytes mapped => exact writeBytes_same st' hfirst
    obtain ⟨st1', hrest', hsame'⟩ := ih st2' h
    refine ⟨st1', ?_, fun f o hfo => hsame' f o ?_⟩
    · rw [replay]
      exact bind_eq_some_iff.mpr ⟨st2', hfirst', hrest'⟩
    · rcases hfo with hfo | ⟨e', he', v, hv, hat⟩
      · exact .inl (hsame f o (.inl hfo))
      · rcases mem_cons.mp he' with rfl | he'
        · exact .inl (hsame f o (.inr ⟨v, hv, hat⟩))
        · exact .inr ⟨e', he', v, hv, hat⟩

end Writes

/-! ## Pages -/

/-- The directory of a process in a world that is in order. -/
def Good (w : World) (root : Nat) : Prop :=
  ∃ R S, Sound w R S ∧ Owned R w ∧ R root ∧ root ≠ w.kernel.root

section Pages

variable {w w' : World} {root : Nat}

theorem Good.mapPage {v : VAddr} {attr a : Nat} (h : Good w root)
    (hm : mapPage w root v attr = some (w', a)) : Good w' root ∧ ∀ u, Low u →
      (pte w' root u = pte w root u ∨
        pageOf u % 2 ^ 36 = pageOf v % 2 ^ 36 ∧
          (attr.testBit 3 = true → (pte w' root u).p = false)) := by
  obtain ⟨R, S, hs, ho, hr, hk⟩ := h
  have hst := mapPage_steady hs hr hm
  refine ⟨⟨R, S, hst.sound, ho.mapPage hs hr hm, hr, by rw [hst.ext.kernel]; exact hk⟩,
    fun u hu => ?_⟩
  obtain ⟨e, he, hview⟩ := mapPage_private hs hr hm
  rw [hview u hr hu.not_shared]
  split
  · rename_i hslot
    refine .inr ⟨path_eq_iff.mp (slotOf_eq_iff.mp hslot).1, fun hdefer => ?_⟩
    have hv : ¬ Shared v := fun hc => slotOf_ne_of_shared hu.not_shared hc hslot
    rw [(he hv).2]
    simp [setAttributes, hdefer]
  · exact .inl rfl

/-- A page that is there after `mmap` was there before. -/
theorem Good.mmapLoop {n cur cur' : Nat} (h : Good w root)
    (hm : Mmap.mmapLoop root n w cur = some (w', cur')) : Good w' root ∧ ∀ u, Low u →
      (pte w' root u).p = true → pte w' root u = pte w root u := by
  induction n generalizing w cur with
  | zero =>
    cases hm
    exact ⟨h, fun _ _ _ => rfl⟩
  | succ n ih =>
    obtain ⟨⟨w1, a⟩, hpage, hm⟩ := of_bind hm
    obtain ⟨h1, hview⟩ := h.mapPage hpage
    obtain ⟨h', hview'⟩ := ih h1 hm
    refine ⟨h', fun u hu hp => ?_⟩
    have hlast := hview' u hu hp
    rcases hview u hu with hsame | ⟨-, hdefer⟩
    · exact hlast.trans hsame
    · rw [hlast, hdefer (by decide)] at hp
      cases hp

/-- A page that is there after `exec` was there before, or is one of those that it maps. -/
theorem Good.mapPages {vs : List VAddr} (h : Good w root) (hm : mapPages w root vs = some w') :
    Good w' root ∧ ∀ u, Low u →
      (pte w' root u = pte w root u ∨ ∃ v ∈ vs, pageOf u % 2 ^ 36 = pageOf v % 2 ^ 36) := by
  induction vs generalizing w with
  | nil =>
    cases hm
    exact ⟨h, fun _ _ => .inl rfl⟩
  | cons v vs ih =>
    obtain ⟨w1, hmap, hm⟩ := of_bind hm
    obtain ⟨⟨w1', a⟩, hpage, rfl⟩ := map_eq_some_iff.mp hmap
    obtain ⟨h1, hview⟩ := h.mapPage hpage
    obtain ⟨h', hview'⟩ := ih h1 hm
    refine ⟨h', fun u hu => ?_⟩
    rcases hview' u hu with hlast | ⟨v', hv', hpage⟩
    · rcases hview u hu with hsame | ⟨hpage, -⟩
      · exact .inl (hlast.trans hsame)
      · exact .inr ⟨v, mem_cons_self, hpage⟩
    · exact .inr ⟨v', mem_cons_of_mem v hv', hpage⟩

theorem Good.unmapUserSpace {pd : PageDirectory} (h : Good w root)
    (hu : (unmapUserSpace w root : Traced Call (World × PageDirectory)).result = some (w', pd)) :
    Good w' pd.root ∧ ∀ u, Low u → (pte w' pd.root u).p = false := by
  obtain ⟨R, S, hs, ho, hr, hk⟩ := h
  have hgone := unmapUserSpace_low hs ho hr hk hu
  refine ⟨?_, fun u hlow => (Bool.or_eq_false_iff.mp (hgone u hlow)).1⟩
  have hfirst := hu
  rw [Paging.unmapUserSpace, result_bind] at hfirst
  obtain ⟨⟨w1, pd'⟩, hm, -⟩ := of_bind hfirst
  have hmap := mapKernel_spec hs hm
  obtain ⟨hpd, w2, hfreed, -, hdown⟩ :=
    (unmapUserSpace_spec hs ho hr hk hm fun ht : False => ht.elim).post hu
  obtain rfl : pd = pd' := hpd
  have hkernel : w'.kernel = w.kernel := by
    rw [hdown.torn.kernel, hfreed.eq]
    exact hmap.ext.kernel
  refine ⟨_, S, hdown.sound, hdown.owned, .inr rfl, fun hc => ?_⟩
  have hlive := hs.rootLive hs.kernel
  rw [← hkernel, ← hc, hmap.new] at hlive
  cases hlive

end Pages

/-! ## What `exec` writes -/

/-- The events of a program that is started. -/
def events (f : File) (args : List Str) : List Event :=
  loadEvents f (loads f.programHeaders) [] ++
    (argumentWrites stackTop args).map fun c => .write c.1 c.2 f.pages

/-- Every byte of every page that the program gets is written. -/
def Covered (f : File) (args : List Str) : Prop :=
  ∀ v, Low v → (∃ u ∈ f.pages, pageOf v % 2 ^ 36 = pageOf u % 2 ^ 36) →
    ∃ e ∈ events f args, Reaches e v

theorem exec_events {f : File} {args : List Str} {w : World} {root rflags : Nat} {m : Mem}
    {l : Loading} {st : Option Start} (hmagic : checkHeader f.header = true)
    (h : exec f root args rflags w m = some (l, st)) :
    mapPages w root f.pages = some l.world ∧ l.events = events f args := by
  rw [exec_eq hmagic] at h
  obtain ⟨w', hmap, h⟩ := of_bind h
  obtain ⟨-, h⟩ := of_assert h
  obtain ⟨hl, -⟩ := Prod.mk.inj (Option.some.inj h)
  obtain ⟨hevents, -, hworld⟩ :=
    Loading.writes_spec (argumentWrites stackTop args)
  rw [← hl, pushArguments_eq, hworld, hevents]
  simp only [File.loaded, events]
  exact ⟨hmap, trivial⟩

/-! ## Two runs -/

inductive Act where
  /-- `mmap`, with the cursor where it is. -/
  | mmap (curPtr length : Nat)
  /-- A page fault at an address, handed to `handleFault`. -/
  | fault (v : VAddr)
  | unmapUserSpace
  | exec (f : File) (args : List Str) (rflags : Nat)
  /-- The process writes. -/
  | store (v : VAddr) (b : UInt8)

def step (s : Proc) : Act → Option Proc
  | .mmap curPtr length => do
      let (w, _) ← Mmap.mmap s.world curPtr s.root length
      some { s with world := w }
  | .fault v => do
      let (w, _) ← handleFault s.world s.root v
      some { s with world := w }
  | .unmapUserSpace => do
      let (w, pd) ←
        (Paging.unmapUserSpace s.world s.root : Traced Call (World × PageDirectory)).result
      some ⟨w, pd.root, s.store⟩
  | .exec f args rflags => do
      -- the memory is in the frames here, so that of `exec` the events matter
      let (l, _) ← Exec.exec f s.root args rflags s.world fun _ => 0
      let store ← replay l.world s.root s.store l.events
      some ⟨l.world, s.root, store⟩
  | .store v b => do
      let store ← writeByte s.world s.root s.store v.toNat b
      some { s with store := store }

/-- What the process gets is all written. -/
def Meets (s : Proc) : Act → Prop
  | .fault v => ¬ Deferred (pte s.world s.root v)
  | .exec f args _ => checkHeader f.header = true → Covered f args
  | _ => True

/-- In both runs: the process does the same, or the rest of the system does something. -/
inductive Move where
  | act (a : Act)
  | others (w : World) (st st' : Store)

def step₂ (p : Proc × Proc) : Move → Option (Proc × Proc)
  | .act a => do
      let s ← step p.1 a
      let s' ← step p.2 a
      some (s, s')
  | .others w st st' => some (⟨w, p.1.root, st⟩, ⟨w, p.2.root, st'⟩)

theorem step₂_act {s s' t t' : Proc} {a : Act} (hs : step s a = some t)
    (hs' : step s' a = some t') : step₂ (s, s') (.act a) = some (t, t') := by
  rw [step₂, hs, hs']
  rfl

/-- The others leave the process what it has. What they do to the frames of others is free, and
may be different in the two runs. -/
structure Leaves (s t : Proc) : Prop where
  good : Good t.world t.root
  pages : ∀ v, Low v → pte t.world t.root v = pte s.world s.root v
  reads : ∀ v, Low v → t.reads v = s.reads v

def Guard (p : Proc × Proc) : Move → Prop
  | .act a => Meets p.1 a
  | .others w st st' =>
    Leaves p.1 ⟨w, p.1.root, st⟩ ∧ Leaves p.2 ⟨w, p.2.root, st'⟩

/-- The process cannot tell the runs apart. -/
structure Alike (s s' : Proc) : Prop where
  world : s'.world = s.world
  root : s'.root = s.root
  good : Good s.world s.root
  reads : ∀ v, Low v → s'.reads v = s.reads v

section Steps

variable {s s' t : Proc}

variable {v : VAddr}

theorem reads_of_p (hp : (pte s.world s.root v).p = true) :
    s.reads v = some (s.store (pte s.world s.root v).base (v.toNat % 4096)) := if_pos hp

theorem reads_of_not (hp : (pte s.world s.root v).p = false) : s.reads v = none := by
  rw [Proc.reads, hp]
  rfl

theorem Alike.byte (h : Alike s s') (hv : Low v) (hp : (pte s.world s.root v).p = true) :
    s'.store (pte s.world s.root v).base (v.toNat % 4096)
      = s.store (pte s.world s.root v).base (v.toNat % 4096) := by
  have hbyte := h.reads v hv
  rw [reads_of_p hp, reads_of_p (by rw [h.world, h.root]; exact hp), h.world, h.root] at hbyte
  exact Option.some.inj hbyte

theorem alike_of {w : World} {r : Nat} {st st' : Store} (hgood : Good w r)
    (hbyte : ∀ v, Low v → (pte w r v).p = true →
      st' (pte w r v).base (v.toNat % 4096) = st (pte w r v).base (v.toNat % 4096)) :
    Alike ⟨w, r, st⟩ ⟨w, r, st'⟩ := by
  refine ⟨rfl, rfl, hgood, fun v hv => ?_⟩
  cases hp : (pte w r v).p with
  | false => rw [reads_of_not hp, reads_of_not hp]
  | true =>
    rw [reads_of_p hp, reads_of_p hp]
    exact congrArg some (hbyte v hv hp)

theorem Alike.keep {w : World} (h : Alike s s') (hgood : Good w s.root)
    (hview : ∀ v, Low v → (pte w s.root v).p = true → pte w s.root v = pte s.world s.root v) :
    Alike { s with world := w } { s' with world := w } := by
  obtain ⟨w', r', st'⟩ := s'
  obtain rfl : r' = s.root := h.root
  refine alike_of hgood fun v hv hp => ?_
  have hsame := hview v hv hp
  rw [hsame] at hp ⊢
  exact h.byte hv hp

/-- A program is loaded: each byte that the process has afterwards was written, or is one that
it had before. -/
theorem Alike.exec {f : File} {args : List Str} {rflags : Nat} {l : Loading} {o : Option Start}
    {st st' : Store} (h : Alike s s')
    (hcover : checkHeader f.header = true → Covered f args)
    (hexec : Exec.exec f s.root args rflags s.world (fun _ => 0) = some (l, o))
    (hsame : ∀ i j, (s'.store i j = s.store i j ∨ ∃ e ∈ l.events, ∃ v, Reaches e v ∧
      At l.world s.root v i j) → st' i j = st i j) :
    Alike ⟨l.world, s.root, st⟩ ⟨l.world, s.root, st'⟩ := by
  cases hmagic : checkHeader f.header with
  | false =>
    rw [exec_reject hmagic] at hexec
    cases hexec
    exact alike_of h.good fun v hv hp => hsame _ _ (.inl (h.byte hv hp))
  | true =>
    obtain ⟨hpages, hevents⟩ := exec_events hmagic hexec
    obtain ⟨hgood, hview⟩ := h.good.mapPages hpages
    refine alike_of hgood fun v hv hp => hsame _ _ ?_
    rcases hview v hv with hold | hnew
    · rw [hold] at hp ⊢
      exact .inl (h.byte hv hp)
    · obtain ⟨e, he, hreach⟩ := hcover hmagic v hv hnew
      exact .inr ⟨e, hevents ▸ he, v, hreach, rfl, rfl⟩

theorem step_exec {f : File} {args : List Str} {rflags : Nat} {l : Loading} {o : Option Start}
    (hexec : Exec.exec f s.root args rflags s.world (fun _ => 0) = some (l, o)) :
    Residue.step s (.exec f args rflags) =
      (replay l.world s.root s.store l.events).map fun st => ⟨l.world, s.root, st⟩ := by
  rw [Residue.step, hexec]
  cases hr : replay l.world s.root s.store l.events with
  | none =>
    simp only [bind_eq_bind, bind_some, hr]
    rfl
  | some st =>
    simp only [bind_eq_bind, bind_some, hr]
    rfl

/-- One step of both. The second run can take every step of the first. -/
theorem Alike.step {a : Act} (h : Alike s s') (ha : Meets s a) (hs : step s a = some t) :
    ∃ t', Residue.step s' a = some t' ∧ Alike t t' := by
  obtain ⟨w', r', st'⟩ := s'
  obtain rfl : w' = s.world := h.world
  obtain rfl : r' = s.root := h.root
  cases a with
  | mmap curPtr length =>
    obtain ⟨⟨w, x⟩, hm, hs⟩ := of_bind hs
    cases hs
    refine ⟨⟨w, s.root, st'⟩, bind_eq_some_iff.mpr ⟨_, hm, rfl⟩, ?_⟩
    rw [Mmap.mmap] at hm
    split at hm
    · cases hm
      exact h
    · obtain ⟨⟨w1, cur⟩, hloop, hm⟩ := of_bind hm
      cases hm
      obtain ⟨hgood, hview⟩ := h.good.mmapLoop hloop
      exact h.keep hgood hview
  | fault v =>
    obtain ⟨⟨w, b⟩, hf, hs⟩ := of_bind hs
    cases hs
    refine ⟨⟨w, s.root, st'⟩, bind_eq_some_iff.mpr ⟨_, hf, rfl⟩, ?_⟩
    obtain ⟨R, S, hsound, -, hr, -⟩ := h.good
    rcases handleFault_spec hsound hr hf with ⟨-, rfl, -⟩ | ⟨-, hdefer, -⟩
    · exact h
    · exact absurd hdefer ha
  | unmapUserSpace =>
    obtain ⟨⟨w, pd⟩, hu, hs⟩ := of_bind hs
    cases hs
    refine ⟨⟨w, pd.root, st'⟩, bind_eq_some_iff.mpr ⟨_, hu, rfl⟩, ?_⟩
    obtain ⟨hgood, hgone⟩ := h.good.unmapUserSpace hu
    refine alike_of hgood fun v hv hp => ?_
    rw [hgone v hv] at hp
    cases hp
  | exec f args rflags =>
    cases hexec : Exec.exec f s.root args rflags s.world (fun _ => 0) with
    | none =>
      rw [Residue.step, hexec] at hs
      cases hs
    | some x =>
      obtain ⟨l, o⟩ := x
      rw [step_exec hexec] at hs
      obtain ⟨st, hreplay, rfl⟩ := map_eq_some_iff.mp hs
      obtain ⟨st₁, hreplay', hsame⟩ := replay_same st' hreplay
      refine ⟨⟨l.world, s.root, st₁⟩, ?_, h.exec ha hexec hsame⟩
      rw [step_exec (s := ⟨s.world, s.root, st'⟩) hexec]
      exact map_eq_some_iff.mpr ⟨st₁, hreplay', rfl⟩
  | store v b =>
    obtain ⟨st, hw, hs⟩ := of_bind hs
    cases hs
    obtain ⟨st₁, hw', hsame⟩ := writeByte_same st' hw
    refine ⟨⟨s.world, s.root, st₁⟩, bind_eq_some_iff.mpr ⟨_, hw', rfl⟩, ?_⟩
    exact alike_of h.good fun u hu hp => hsame _ _ (.inl (h.byte hu hp))

end Steps

theorem Alike.others {s s' : Proc} {w : World} {st st' : Store} (h : Alike s s')
    (hl : Leaves s ⟨w, s.root, st⟩) (hl' : Leaves s' ⟨w, s'.root, st'⟩) :
    Alike ⟨w, s.root, st⟩ ⟨w, s'.root, st'⟩ :=
  ⟨rfl, h.root, hl.good, fun v hv => (hl'.reads v hv).trans ((h.reads v hv).trans
    (hl.reads v hv).symm)⟩

/-- **A process cannot tell what a frame held before** when no page fault gives it a page and what
it gets from `exec` is all written. In the two runs it then reads the same at every address, and
it can go on in one as in the other. -/
theorem reads_alike {s₀ s₀' s s' : Proc} (h₀ : Alike s₀ s₀')
    (hrun : Reach step₂ Guard (s₀, s₀') (s, s')) :
    (∀ v, Low v → s'.reads v = s.reads v) ∧
      ∀ a t, Meets s a → step s a = some t → ∃ t', step s' a = some t' := by
  have h : Alike s s' := by
    refine hrun.invariant (I := fun p => Alike p.1 p.2) h₀ ?_
    rintro ⟨x, x'⟩ (a | ⟨w, st, st'⟩) ⟨y, y'⟩ hx hg hstep
    · obtain ⟨t, ht, hstep⟩ := bind_eq_some_iff.mp hstep
      obtain ⟨t', ht', hstep⟩ := bind_eq_some_iff.mp hstep
      obtain ⟨rfl, rfl⟩ := Prod.mk.inj (Option.some.inj hstep)
      obtain ⟨y', hy', halike⟩ := hx.step hg ht
      rw [ht'] at hy'
      cases hy'
      exact halike
    · obtain ⟨rfl, rfl⟩ := Prod.mk.inj (Option.some.inj hstep)
      exact hx.others hg.1 hg.2
  refine ⟨h.reads, fun a t ha hs => ?_⟩
  obtain ⟨t', ht', -⟩ := h.step ha hs
  exact ⟨t', ht'⟩

/-! ## A stack that is all written -/

section Total

variable {w : World} {root : Nat}

theorem writeBytes_total {bytes : List UInt8} {a : Nat} (st : Store)
    (hp : ∀ v, InChunk a bytes v → (pte w root v).p = true) :
    ∃ st', writeBytes w root st a bytes = some st' := by
  induction bytes generalizing st a with
  | nil => exact ⟨st, rfl⟩
  | cons b bytes ih =>
    have hfirst : (pte w root (BitVec.ofNat 64 a)).p = true :=
      hp _ ⟨0, Nat.succ_pos _, rfl⟩
    have hrest : ∀ v, InChunk (a + 1) bytes v → (pte w root v).p = true := by
      rintro v ⟨i, hi, rfl⟩
      exact hp _ ⟨i + 1, Nat.succ_lt_succ hi, by rw [Nat.add_right_comm, Nat.add_assoc]⟩
    obtain ⟨st', hst'⟩ := ih (update st (pte w root (BitVec.ofNat 64 a)).base
      (update (st (pte w root (BitVec.ofNat 64 a)).base) (a % 4096) b)) hrest
    refine ⟨st', bind_eq_some_iff.mpr ⟨_, ?_, hst'⟩⟩
    exact assert_bind_eq_some.mpr ⟨hfirst, rfl⟩

theorem replay_total {es : List Event} (st : Store)
    (hp : ∀ e ∈ es, ∀ v, Reaches e v → (pte w root v).p = true) :
    ∃ st', replay w root st es = some st' := by
  induction es generalizing st with
  | nil => exact ⟨st, rfl⟩
  | cons e es ih =>
    have hrest := fun st => ih st fun e he => hp e (mem_cons_of_mem _ he)
    cases e with
    | range start size => exact hrest st
    | write start bytes mapped =>
      obtain ⟨st₁, hfirst⟩ := writeBytes_total st (hp _ mem_cons_self)
      obtain ⟨st', h⟩ := hrest st₁
      refine ⟨st', ?_⟩
      exact bind_eq_some_iff.mpr ⟨st₁, hfirst, h⟩

end Total

/-- An argument that takes the whole stack with what goes with it. -/
def longArgument : Str := List.replicate 16359 97

theorem headerOnly_pages : headerOnly.pages = stackPages := by
  have hloads : loads headerOnly.programHeaders = [] := by decide +kernel
  rw [File.pages, hloads, List.flatMap_nil, List.nil_append]

theorem headerOnly_events (args : List Str) : events headerOnly args =
    (argumentWrites stackTop args).map fun c => .write c.1 c.2 stackPages := by
  rfl

theorem longArgument_writes : ∃ x y z : List UInt8,
    argumentWrites stackTop [longArgument] = [(0xf000000018, longArgument ++ [0]),
      (0xf000000010, x), (0xf000000008, y), (0xf000000000, z)] ∧
    x.length = 8 ∧ y.length = 8 ∧ z.length = 8 := by
  have hstring : back stackTop (longArgument.length + 1) = 0xf000000018 := by
    rw [longArgument, length_replicate]
    decide
  refine ⟨word 0, word 0xf000000018, word 1, ?_, length_word 0, length_word _, length_word 1⟩
  rw [argumentWrites, arrayStart, stringEnd, stringStarts, stringWrites, List.foldl_cons, hstring]
  rfl

theorem longArgument_covered : Covered headerOnly [longArgument] := by
  rintro v hv ⟨u, hu, hpage⟩
  -- the address is on the stack
  have hrange : 0xf000000000 ≤ v.toNat ∧ v.toNat < 0xf000004000 := by
    obtain ⟨k, hk, hu⟩ := (mem_pagesFrom (by decide)).mp hu
    have hv' : v.toNat < 2 ^ 47 := hv
    simp only [pageOf, PAGE_SIZE] at hpage
    omega
  obtain ⟨x, y, z, hwrites, hx, hy, hz⟩ := longArgument_writes
  have hat : ∀ {start : Nat} {bytes : List UInt8}, (start, bytes) ∈ argumentWrites stackTop
      [longArgument] → start ≤ v.toNat → v.toNat < start + bytes.length →
      ∃ e ∈ events headerOnly [longArgument], Reaches e v := by
    intro start bytes hmem hle hlt
    refine ⟨.write start bytes stackPages, mem_map.mpr ⟨(start, bytes), hmem, rfl⟩,
      v.toNat - start, by omega, ?_⟩
    rw [Nat.add_sub_cancel' hle, BitVec.ofNat_toNat, BitVec.setWidth_eq]
  have hlen : (longArgument ++ [0]).length = 16360 := by
    rw [longArgument, length_append, length_replicate]
    rfl
  rw [hwrites] at hat
  by_cases h1 : 0xf000000018 ≤ v.toNat
  · exact hat mem_cons_self h1 (by omega)
  by_cases h2 : 0xf000000010 ≤ v.toNat
  · exact hat (mem_cons_of_mem _ mem_cons_self) h2 (by omega)
  by_cases h3 : 0xf000000008 ≤ v.toNat
  · exact hat (mem_cons_of_mem _ (mem_cons_of_mem _ mem_cons_self)) h3 (by omega)
  · exact hat (mem_cons_of_mem _ (mem_cons_of_mem _ (mem_cons_of_mem _
      mem_cons_self))) hrange.1 (by omega)

/-- The process gets a stack, with an argument that fills it. -/
theorem reads_alike_longArgument : ∃ s₀ s₀' s s' : Proc, Alike s₀ s₀' ∧
    s₀.store 5 0 ≠ s₀'.store 5 0 ∧
    step s₀ (.exec headerOnly [longArgument] 0x200) = some s ∧
    step s₀' (.exec headerOnly [longArgument] 0x200) = some s' ∧
    ∀ v, Low v → s'.reads v = s.reads v := by
  obtain ⟨w, root, hroomy, hvacant, howned, hapart⟩ := exists_process
  have hgood : Good w root :=
    ⟨_, _, hroomy.stock.ready.sound, howned, hroomy.dir, hapart⟩
  have h₀ : Alike ⟨w, root, fun _ _ => 0⟩ ⟨w, root, fun _ _ => 1⟩ :=
    alike_of hgood fun v hv hp => absurd hp (by rw [hvacant v hv]; decide)
  have hmagic : checkHeader headerOnly.header = true := by decide
  obtain ⟨l, st, hexec⟩ : ∃ l st,
      Exec.exec headerOnly root [longArgument] 0x200 w (fun _ => 0) = some (l, some st) :=
    starts_without_segments (hroomy.mono (by decide)) hvacant hmagic (by decide)
  obtain ⟨hpages, hevents⟩ := exec_events hmagic hexec
  rw [headerOnly_pages] at hpages
  obtain ⟨-, -, -, hmapped, -⟩ := mapPages_spec hroomy.dir (fun v hv => stackPages_low hv)
    hroomy.stock.ready.sound hpages
  have hfit : ArgumentsFit headerOnly [longArgument] := by
    refine argumentsFit_of_le ?_
    rw [blockSize, stringBytes_cons, longArgument, length_replicate]
    decide
  rw [ArgumentsFit, headerOnly_pages] at hfit
  have hinside := (inside_arguments_iff (by decide)).mpr hfit
  -- what is written is on the stack, which is mapped
  have hpresent : ∀ e ∈ l.events, ∀ v, Reaches e v → (pte l.world root v).p = true := by
    rw [hevents, headerOnly_events]
    rintro e he v hv
    obtain ⟨c, hc, rfl⟩ := mem_map.mp he
    obtain ⟨i, hi, rfl⟩ := hv
    have hon := hinside c hc i hi
    rw [← BitVec.toNat_ofNat] at hon
    exact (hmapped _ hon.1 hon.2).1
  obtain ⟨st₁, hreplay⟩ := replay_total (fun _ _ => 0) hpresent
  have hstep : step ⟨w, root, fun _ _ => 0⟩ (.exec headerOnly [longArgument] 0x200)
      = some ⟨l.world, root, st₁⟩ := by
    rw [step_exec (s := ⟨w, root, fun _ _ => 0⟩) hexec]
    exact map_eq_some_iff.mpr ⟨st₁, hreplay, rfl⟩
  have hmeets : Meets ⟨w, root, fun _ _ => 0⟩ (.exec headerOnly [longArgument] 0x200) :=
    fun _ => longArgument_covered
  obtain ⟨t', ht', -⟩ := h₀.step hmeets hstep
  have hreach : Reach step₂ Guard (⟨w, root, fun _ _ => 0⟩, ⟨w, root, fun _ _ => 1⟩)
      (⟨l.world, root, st₁⟩, t') :=
    .tail (a := .act (.exec headerOnly [longArgument] 0x200)) .start hmeets (step₂_act hstep ht')
  exact ⟨_, _, _, t', h₀, show (0 : UInt8) ≠ 1 by decide, hstep, ht', (reads_alike h₀ hreach).1⟩

/-! ## A page from `mmap` -/

/-- A process is made, calls `mmap` for one byte, and uses it. -/
def firstUse (w₀ : World) : Option (PageDirectory × World × World × World) := do
  let (w₁, pd) ← mapKernel w₀
  let (w₂, _) ← Mmap.mmap w₁ Mmap.firstPtr pd.root 1
  let (w₃, _) ← handleFault w₂ pd.root 0xff005000
  some (pd, w₁, w₂, w₃)

theorem firstUse_steps {w0 w1 w2 w3 : World} {pd : PageDirectory} (st : Store)
    (hx : firstUse w0 = some (pd, w1, w2, w3)) : mapKernel w0 = some (w1, pd) ∧
    step ⟨w1, pd.root, st⟩ (.mmap Mmap.firstPtr 1) = some ⟨w2, pd.root, st⟩ ∧
    step ⟨w2, pd.root, st⟩ (.fault 0xff005000) = some ⟨w3, pd.root, st⟩ := by
  obtain ⟨⟨w1, pd⟩, hk, hx⟩ := of_bind hx
  obtain ⟨⟨w2, x⟩, hm, hx⟩ := of_bind hx
  obtain ⟨⟨w3, b⟩, hf, hx⟩ := of_bind hx
  cases hx
  exact ⟨hk, bind_eq_some_iff.mpr ⟨_, hm, rfl⟩, bind_eq_some_iff.mpr ⟨_, hf, rfl⟩⟩

/-- The small kernel when it has run for a while: three frames below one that is in use have been
given back. -/
def usedKernel : World :=
  { smallKernel with frames := smallKernel.frames ++ [false, false, false, true] }

theorem usedKernel_sound : Sound usedKernel (· = 0) 2 := smallKernel_sound.withFrames _

theorem usedKernel_owned : Owned (· = 0) usedKernel := by
  intro _
  refine (smallKernel_owned (by decide)).drop (fun hx => hx) fun _ hf => ?_
  show (smallKernel.frames ++ _)[_]? = some true
  rw [List.getElem?_append_left hf.lt]
  exact hf

/-- **The page has what the frame held.** The runs differ only in frames that had been given
back when the process is made, and the first byte that it reads from its page is different. -/
theorem mmap_reads_residue : ∃ s₀ s₀' s₁ s₁' s s' : Proc, Alike s₀ s₀' ∧
    (∀ f, s₀.world.frames[f]? ≠ some false → s₀'.store f = s₀.store f) ∧
    step s₀ (.mmap Mmap.firstPtr 1) = some s₁ ∧ step s₀' (.mmap Mmap.firstPtr 1) = some s₁' ∧
    step s₁ (.fault 0xff005000) = some s ∧ step s₁' (.fault 0xff005000) = some s' ∧
    s.reads 0xff005000 = some 0 ∧ s'.reads 0xff005000 = some 1 := by
  have hrun : (firstUse usedKernel).map (fun x => ((pte x.2.2.2 x.1.root 0xff005000).p,
      (pte x.2.2.2 x.1.root 0xff005000).base, x.2.1.frames[50]?))
      = some (true, 50, some false) := by
    decide +kernel
  obtain ⟨⟨pd, w₁, w₂, w₃⟩, hx, hfacts⟩ := map_eq_some_iff.mp hrun
  simp only [Prod.mk.injEq] at hfacts
  obtain ⟨hp, hbase, hfree⟩ := hfacts
  let other : Store := fun f _ => if w₁.frames[f]? = some false then 1 else 0
  obtain ⟨hk, hmmap, hfault⟩ := firstUse_steps (fun _ _ => 0) hx
  obtain ⟨-, hmmap', hfault'⟩ := firstUse_steps other hx
  have hmap := mapKernel_spec usedKernel_sound hk
  have hgood : Good w₁ pd.root := by
    refine ⟨_, _, hmap.sound, usedKernel_owned.mapKernel usedKernel_sound hmap, .inr rfl,
      fun hc => ?_⟩
    have hlive := usedKernel_sound.rootLive usedKernel_sound.kernel
    rw [← hmap.ext.kernel, ← hc, hmap.new] at hlive
    cases hlive
  refine ⟨_, _, _, _, _, _, alike_of hgood fun v hv hp => ?_, fun f hf => ?_, hmmap, hmmap', hfault,
    hfault', ?_, ?_⟩
  · rw [hmap.view, if_neg hv.not_shared] at hp
    cases hp
  · funext o
    exact if_neg hf
  · exact reads_of_p (s := ⟨w₃, pd.root, fun _ _ => 0⟩) hp
  · rw [reads_of_p (s := ⟨w₃, pd.root, other⟩) hp]
    refine congrArg some (if_pos ?_)
    rw [hbase]
    exact hfree

end Flix.Exec.Residue

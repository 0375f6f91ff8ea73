import Flix.Exec.Elf
import Flix.Fs.Cpio
import Flix.Paging.Lifetime

/-!
# `execve`

The system call looks for the file and opens it, unmaps the user space of its caller, and only
then has `elf::exec` look at the file. When `exec` does not take it, `execve` returns an error to
a program that is gone.
-/

namespace Flix.Exec

open Bytes Paging Fs Traced

/-- The task that calls, as far as a program can tell: its directory in the world, its memory
and its context. -/
structure Caller where
  world : World
  root : Nat
  mem : Mem
  context : Start

/-- What comes of the call. -/
inductive Outcome where
  /-- It returns -1. -/
  | failed (s : Caller)
  /-- The program is started in the place of the caller. -/
  | started (s : Caller)

/-- The part of `execve` up to `open`: the bytes of the file that is to be executed. -/
def openTarget (children : List CpioInode) (fuel : Nat) (filename : Str) :
    Option (Except IoError Str) :=
  if filename.head? ≠ some slash then some (.error .InvalidPath)
  else do
    match ← lookupPath (cpioFs children) .None fuel filename with
    | .error e => some (.error e)
    | .ok i => some (i.openHandle.map CpioFileHandle.data)

/-- `execve`, in a file system with what is `around` its files and in the `locals` of `exec`. -/
def execve (children : List CpioInode) (around : Nat → UInt8) (locals : Nat → Mem) (fuel : Nat)
    (filename : Str) (args : List Str) (rflags : Nat) (s : Caller) : Option Outcome := do
  match ← openTarget children fuel filename with
  | .error _ => some (.failed s)
  | .ok data =>
    let (w, pd) ← (unmapUserSpace s.world s.root : Traced Call (World × PageDirectory)).result
    let (l, st) ← exec ⟨data, around, locals⟩ pd.root args rflags w s.mem
    match st with
    | none => some (.failed ⟨l.world, pd.root, l.mem, s.context⟩)
    | some st => some (.started ⟨l.world, pd.root, l.mem, st⟩)

/-- What the caller reads at an address. -/
def Caller.reads (s : Caller) (v : VAddr) : Option UInt8 :=
  if (pte s.world s.root v).p then some (s.mem v.toNat) else none

/-- The user space and the context are the same: the pages that are valid, their attributes, and
what is read from them. -/
structure Unchanged (s s' : Caller) : Prop where
  context : s'.context = s.context
  valid : ∀ v, Low v → (pte s'.world s'.root v).isValid = (pte s.world s.root v).isValid
  attributes : ∀ v, Low v → (pte s.world s.root v).isValid = true →
    (pte s'.world s'.root v).getAttributes = (pte s.world s.root v).getAttributes
  reads : ∀ v, Low v → s'.reads v = s.reads v

/-- The caller has no user page. -/
def Bare (s : Caller) : Prop := ∀ v, Low v → (pte s.world s.root v).isValid = false

theorem Unchanged.refl (s : Caller) : Unchanged s s :=
  ⟨rfl, fun _ _ => rfl, fun _ _ _ => rfl, fun _ _ => rfl⟩

theorem Bare.unchanged {s s' : Caller} (h : Bare s) (h' : Bare s') (hc : s'.context = s.context) :
    Unchanged s s' := by
  have hreads : ∀ {t : Caller}, Bare t → ∀ v, Low v → t.reads v = none := by
    intro t ht v hv
    have hp : (pte t.world t.root v).p = false := (Bool.or_eq_false_iff.mp (ht v hv)).1
    rw [Caller.reads, hp]
    rfl
  refine ⟨hc, fun v hv => ?_, fun v hv hvalid => ?_, fun v hv => ?_⟩
  · rw [h v hv, h' v hv]
  · rw [h v hv] at hvalid
    cases hvalid
  · rw [hreads h v hv, hreads h' v hv]

section

variable {children : List CpioInode} {around : Nat → UInt8} {locals : Nat → Mem} {fuel : Nat}
  {filename : Str} {args : List Str} {rflags : Nat} {s s' : Caller} {R : Nat → Prop} {S : Nat}

/-- After `unmapUserSpace` there is no user page. -/
theorem unmapUserSpace_low {w w' : World} {root : Nat} {pd : PageDirectory} (h : Sound w R S)
    (ho : Owned R w) (hr : R root) (hk : root ≠ w.kernel.root)
    (hu : (unmapUserSpace w root : Traced Call (World × PageDirectory)).result = some (w', pd)) :
    ∀ v, Low v → (pte w' pd.root v).isValid = false := by
  have hfirst := hu
  rw [unmapUserSpace, result_bind] at hfirst
  obtain ⟨⟨w1, pd'⟩, hm, -⟩ := of_bind hfirst
  have hmap := mapKernel_spec h hm
  obtain ⟨hpd, w2, hfreed, -, hdown⟩ :=
    (unmapUserSpace_spec h ho hr hk hm fun ht : False => ht.elim).post hu
  obtain rfl : pd = pd' := hpd
  intro v hv
  -- the new directory has only what is shared
  have hzero : pte w2 pd.root v = .zero := by
    rw [hfreed.eq]
    show pte w1 pd.root v = .zero
    rw [hmap.view, if_neg hv.not_shared]
  rcases hdown.torn.view v (.inr rfl) with hsame | ⟨-, y, -, hslot⟩
  · rw [hsame, hzero]
    rfl
  · obtain ⟨-, hroot | hshared⟩ := slotOf_eq_iff.mp hslot
    · have hlive := h.rootLive h.kernel
      have hk2 : w2.kernel = w.kernel := by
        rw [hfreed.eq]
        exact hmap.ext.kernel
      rw [← hk2, ← hroot, hmap.new] at hlive
      cases hlive
    · exact absurd hshared hv.not_shared

variable {data : Str}

theorem execve_eq (hopen : openTarget children fuel filename = some (.ok data)) :
    execve children around locals fuel filename args rflags s =
      ((unmapUserSpace s.world s.root : Traced Call (World × PageDirectory)).result.bind fun x =>
        (exec ⟨data, around, locals⟩ x.2.root args rflags x.1 s.mem).bind fun y =>
          match y.2 with
          | none => some (.failed ⟨y.1.world, x.2.root, y.1.mem, s.context⟩)
          | some st => some (.started ⟨y.1.world, x.2.root, y.1.mem, st⟩)) := by
  rw [execve, hopen]
  rfl

/-- A file without the magic number is found out when the user space is gone. -/
theorem execve_reject {w' : World} {pd : PageDirectory}
    (hopen : openTarget children fuel filename = some (.ok data))
    (hmagic : checkHeader (File.header ⟨data, around, locals⟩) = false)
    (hu : (unmapUserSpace s.world s.root : Traced Call (World × PageDirectory)).result
      = some (w', pd)) : execve children around locals fuel filename args rflags s
      = some (.failed ⟨w', pd.root, s.mem, s.context⟩) := by
  rw [execve_eq hopen, hu, bind_some, exec_reject hmagic]
  rfl

/-- With the magic number `execve` does not return. -/
theorem execve_not_failed (hopen : openTarget children fuel filename = some (.ok data))
    (hmagic : checkHeader (File.header ⟨data, around, locals⟩) = true) :
    execve children around locals fuel filename args rflags s ≠ some (.failed s') := by
  intro hx
  rw [execve_eq hopen] at hx
  obtain ⟨x, -, hx⟩ := of_bind hx
  rw [exec_eq hmagic] at hx
  obtain ⟨y, hy, hx⟩ := of_bind hx
  obtain ⟨w1, -, hy⟩ := of_bind hy
  obtain ⟨-, hy⟩ := of_assert hy
  cases hy
  cases hx

end

/-! ## A task with a page -/

/-- A file at the root that is one byte long. -/
def oneByte : List CpioInode := [.file [120] S_IFREG 1 [0]]

theorem openTarget_oneByte : openTarget oneByte 2 [slash, 120] = some (.ok [0]) := by decide

theorem openTarget_missing :
    openTarget oneByte 2 [slash, 121] = some (.error .NotFound) := by decide

theorem exists_caller (m : Mem) (c : Start) : ∃ s : Caller, s.mem = m ∧ s.context = c ∧
    Sound s.world (fun r => r = 0 ∨ r = s.root) 2 ∧ Owned (fun r => r = 0 ∨ r = s.root) s.world ∧
    s.root ≠ s.world.kernel.root ∧ (pte s.world s.root 0x400000).p = true ∧
    ∃ x, (unmapUserSpace s.world s.root : Traced Call (World × PageDirectory)).result
      = some x := by
  have hlow : Low 0x400000 := by decide
  obtain ⟨pd, t, w1, w2, pd', -, htaken, hlen, hk, hreach, hk'⟩ :=
    Lifetime.onePage_run 7 hlow.not_shared (by decide +kernel)
  have hinv : Lifetime.Inv (· = 0) 2 pd.root t :=
    hreach.invariant
      (Lifetime.start_inv smallKernel_sound smallKernel_owned rfl Lifetime.smallKernel_backed hk)
      fun _ _ _ hI hg hs => hI.step hg hs
  obtain ⟨w3, w4, hres, -⟩ := hinv.unmapUserSpace hk' (by omega)
  have hmem : (0x400000, 4) ∈ t.taken := by
    rw [htaken]
    exact mem_singleton.mpr rfl
  exact ⟨⟨t.world, pd.root, m, c⟩, rfl, rfl, hinv.sound, hinv.owned, hinv.apart,
    (hinv.taken hmem hlow.not_shared).1, (w4, pd'), hres⟩

/-! ## What is left -/

/-- **A failing `execve` leaves the caller as it was exactly when it fails early**: the file is
not found or cannot be opened. Once it is open, either it has the magic number, and the call does
not return; or the caller has no user page to lose; or `unmapUserSpace` stops the kernel. -/
theorem execve_failed_iff {children : List CpioInode} {around : Nat → UInt8} {locals : Nat → Mem}
    {fuel : Nat} {filename : Str} {args : List Str} {rflags : Nat} {s : Caller} {R : Nat → Prop}
    {S : Nat} (h : Sound s.world R S) (ho : Owned R s.world) (hr : R s.root)
    (hk : s.root ≠ s.world.kernel.root) :
    (∀ s', execve children around locals fuel filename args rflags s = some (.failed s') →
      Unchanged s s') ↔
    ∀ data, openTarget children fuel filename = some (.ok data) →
      checkHeader (File.header ⟨data, around, locals⟩) = true ∨ Bare s ∨
        (unmapUserSpace s.world s.root : Traced Call (World × PageDirectory)).result = none := by
  constructor
  · intro hsame data hopen
    cases hmagic : checkHeader (File.header ⟨data, around, locals⟩) with
    | true => exact .inl rfl
    | false =>
      refine .inr ?_
      cases hu : (unmapUserSpace s.world s.root : Traced Call (World × PageDirectory)).result with
      | none => exact .inr rfl
      | some x =>
        obtain ⟨w', pd⟩ := x
        have hkept := hsame _ (execve_reject hopen hmagic hu)
        have hgone := unmapUserSpace_low h ho hr hk hu
        exact .inl fun v hv => (hkept.valid v hv).symm.trans (hgone v hv)
  · intro hcond s' hx
    obtain ⟨r, hopen, hx'⟩ := bind_eq_some_iff.mp hx
    cases r with
    | error e =>
      cases hx'
      exact .refl s
    | ok data =>
      cases hmagic : checkHeader (File.header ⟨data, around, locals⟩) with
      | true => exact absurd hx (execve_not_failed hopen hmagic)
      | false =>
        obtain ⟨⟨w', pd⟩, hu, -⟩ := bind_eq_some_iff.mp hx'
        rcases hcond data hopen with hc | hbare | hc
        · rw [hmagic] at hc
          cases hc
        · rw [execve_reject hopen hmagic hu] at hx
          cases hx
          exact hbare.unchanged (unmapUserSpace_low h ho hr hk hu) rfl
        · rw [hu] at hc
          cases hc

/-- The path leads nowhere. -/
theorem execve_failed_iff_missing : ∃ s : Caller, (pte s.world s.root 0x400000).p = true ∧
    execve oneByte (fun _ => 0) (fun _ _ => 0) 2 [slash, 121] [] 0x200 s = some (.failed s) ∧
    ∀ s', execve oneByte (fun _ => 0) (fun _ _ => 0) 2 [slash, 121] [] 0x200 s
      = some (.failed s') → Unchanged s s' := by
  obtain ⟨s, -, -, hsound, howned, hapart, hp, -⟩ := exists_caller (fun _ => 0) ⟨0, 0⟩
  refine ⟨s, hp, rfl, (execve_failed_iff hsound howned (.inr rfl) hapart).mpr fun data hopen => ?_⟩
  rw [openTarget_missing] at hopen
  cases hopen

/-- The file is not a program. The call returns, and the page of the caller is gone. -/
theorem execve_failed_bare : ∃ s s' : Caller, (pte s.world s.root 0x400000).isValid = true ∧
    execve oneByte (fun _ => 0) (fun _ _ => 0) 2 [slash, 120] [] 0x200 s = some (.failed s') ∧
    (pte s'.world s'.root 0x400000).isValid = false ∧ ¬ Unchanged s s' := by
  obtain ⟨s, -, -, hsound, howned, hapart, hp, ⟨w', pd⟩, hu⟩ := exists_caller (fun _ => 0) ⟨0, 0⟩
  have hlow : Low 0x400000 := by decide
  have hvalid : (pte s.world s.root 0x400000).isValid = true := by
    rw [Entry.isValid, hp]
    rfl
  have hgone := unmapUserSpace_low hsound howned (.inr rfl) hapart hu 0x400000 hlow
  refine ⟨s, ⟨w', pd.root, s.mem, s.context⟩, hvalid,
    execve_reject openTarget_oneByte (by decide) hu, hgone, fun hsame => ?_⟩
  have hkept := hsame.valid 0x400000 hlow
  rw [hgone, hvalid] at hkept
  cases hkept

end Flix.Exec

import Flix.Cpu.Frame

/-!
# The two ways to make a system call

A user program enters the kernel through `int 0x80` or through the `syscall`
instruction. For the former the processor pushes the user's `rip`, `cs`,
`rflags`, `rsp` and `ss`; for the latter it pushes nothing, and `syscall_entry`
builds the same frame by hand.

By hand it gets three of the five right. It stores the selectors it finds in
`cs` and `ss`, but by then these are the kernel's. And it uses `rcx` to move
them before it pushes `rcx` with the other registers, while the fourth argument,
which a program passes in `r10`, is looked for in `rcx`.
-/

namespace Flix.Cpu

open Function Space

/-! ## Entering -/

/-- The arguments `SysCallExecutor` passes on to a handler that takes `arity` of them. -/
def sysCallExecutor (arity : Nat) (st : InterruptState) : List (BitVec 64) :=
  match arity with
  | 0 => []
  | 1 => [st.rdi]
  | 2 => [st.rdi, st.rsi]
  | 3 => [st.rdi, st.rsi, st.rdx]
  | 4 => [st.rdi, st.rsi, st.rdx, st.rcx]
  | _ => [st.rdi, st.rsi, st.rdx, st.rcx, st.r8]

/-- What a registered handler gets to see of its caller. -/
structure HandlerView where
  args : List (BitVec 64)
  cs : BitVec 64
  ss : BitVec 64
  rip : BitVec 64
  rsp : BitVec 64
  rflags : BitVec 64

def viewOf (arity : Nat) (st : InterruptState) : HandlerView where
  args := sysCallExecutor arity st
  cs := st.cs
  ss := st.ss
  rip := st.rip
  rsp := st.rsp
  rflags := st.rflags

/-- The view through `syscall`, from the user's machine `m`. -/
def viewBySyscall (arity : Nat) (m : Machine) : Option HandlerView :=
  (run syscallEntry (syscall m)).map fun m' =>
    viewOf arity (readInterruptState m'.mem (m'.gpr .rdi))

/-- The view through `int 0x80`, on the interrupt stack `ist`. -/
def viewByInt80 (arity : Nat) (ist : Addr) (m : Machine) : Option HandlerView :=
  (run (isr 0x80) (interrupt ist m)).map fun m' =>
    viewOf arity (readInterruptState m'.mem (m'.gpr .rdi))

/-- The same call in the other convention: the fourth argument moves from `r10` to `rcx`. -/
def int80Convention (m : Machine) : Machine := m.setReg .rcx (m.gpr .r10)

/-- The machine before the pushes that both paths have in common. -/
def afterPrologue (m : Machine) : Machine :=
  let c := m.kernelStack - 40
  { m with
    gpr := update (update (update (update m.gpr .rcx m.rip) .r11 m.rflags) .rcx 0x10) .rsp (c - 9)
    cs := 0x08
    ss := 0x10
    rspSave := m.rsp
    mem := storeQ (storeQ (storeQ (storeQ (storeQ m.mem
      (c + BitVec.ofNat 64 24) m.rsp)
      (c + BitVec.ofNat 64 16) m.rflags)
      (c + BitVec.ofNat 64 0) m.rip)
      (c + BitVec.ofNat 64 8) 0x08)
      (c + BitVec.ofNat 64 32) 0x10 }

theorem afterPrologue_rsp (m : Machine) : (afterPrologue m).rsp = m.kernelStack - 40 - 9 := by
  simp [afterPrologue, Machine.rsp]

theorem run_syscallEntry (m : Machine) :
    run syscallEntry (syscall m) = run saveAndCall (afterPrologue m) := by
  have hrip : m.kernelStack - BitVec.ofNat 64 8 - 8 - 8 - BitVec.ofNat 64 8 - 8
      = m.kernelStack - 40 := by
    show m.kernelStack - 8 - 8 - 8 - 8 - 8 = _
    ring
  have hflags : m.kernelStack - BitVec.ofNat 64 8 - 8 - 8
      = m.kernelStack - 40 + BitVec.ofNat 64 16 := by
    show m.kernelStack - 8 - 8 - 8 = m.kernelStack - 40 + 16
    ring
  have hrsp : m.kernelStack - BitVec.ofNat 64 8 - 8 = m.kernelStack - 40 + BitVec.ofNat 64 24 := by
    show m.kernelStack - 8 - 8 = m.kernelStack - 40 + 24
    ring
  have hgpr : ∀ (g : Reg → BitVec 64) (a b v : BitVec 64),
      update (update (update g .rsp a) .rcx v) .rsp b = update (update g .rcx v) .rsp b := by
    intro g a b v
    rw [update_comm (by decide : Reg.rsp ≠ .rcx), update_idem]
  have hprologue : run [.saveRsp, .loadKernelStack,
      .sub .rsp 0x8, .pushRspSave, .push .r11, .sub .rsp 0x8, .push .rcx,
      .movCs .rcx, .storeReg .rsp 0x8 .rcx,
      .movSs .rcx, .storeReg .rsp 0x20 .rcx,
      .sub .rsp 0x9] (syscall m) = some (afterPrologue m) := by
    simp only [run, exec, Machine.setReg, Machine.pushWord, Machine.rsp, syscall, afterPrologue,
      Option.bind_some, update_self, update_idem]
    rw [hrip, hflags, hrsp, hgpr, BitVec.add_zero]
    rfl
  rw [syscallEntry, run_append, hprologue, Option.bind_some]

/-- A word of the frame that `syscall_entry` builds, if it is not stored over. -/
theorem loadQ_storeQ_of_offsets {mem : Memory} {c : Addr} {o p : Nat} {v : BitVec 64}
    (h : o + 8 ≤ p ∨ p + 8 ≤ o) (ho : o ≤ 1024) (hp : p ≤ 1024) :
    loadQ (storeQ mem (c + BitVec.ofNat 64 o) v) (c + BitVec.ofNat 64 p)
      = loadQ mem (c + BitVec.ofNat 64 p) :=
  loadQ_of_same (same_store (apart_of_offsets c (by omega)))

/-- What the handler of a system call sees of the caller `m`, where it looks. -/
structure SyscallFrame (m : Machine) (st : InterruptState) : Prop where
  rip : st.rip = m.rip
  rflags : st.rflags = m.rflags
  rsp : st.rsp = m.rsp
  /-- The selectors are the kernel's. -/
  cs : st.cs = 0x08
  ss : st.ss = 0x10
  /-- And so is the fourth argument. -/
  rcx : st.rcx = 0x10
  rdi : st.rdi = m.gpr .rdi
  rsi : st.rsi = m.gpr .rsi
  rdx : st.rdx = m.gpr .rdx
  r8 : st.r8 = m.gpr .r8
  rax : st.rax = m.gpr .rax

theorem frameOf_afterPrologue (m : Machine) : SyscallFrame m (frameOf (afterPrologue m)) := by
  have hbase : ∀ o : Nat, (afterPrologue m).rsp + BitVec.ofNat 64 (9 + o)
      = m.kernelStack - 40 + BitVec.ofNat 64 o := by
    intro o
    rw [BitVec.ofNat_add, ← BitVec.add_assoc]
    show m.kernelStack - 40 - 9 + 9 + _ = _
    rw [BitVec.sub_add_cancel]
  constructor
  · show loadQ (afterPrologue m).mem ((afterPrologue m).rsp + BitVec.ofNat 64 (9 + 0)) = _
    rw [hbase]
    simp (disch := omega) only [afterPrologue, loadQ_storeQ_of_offsets, loadQ_storeQ]
  · show loadQ (afterPrologue m).mem ((afterPrologue m).rsp + BitVec.ofNat 64 (9 + 16)) = _
    rw [hbase]
    simp (disch := omega) only [afterPrologue, loadQ_storeQ_of_offsets, loadQ_storeQ]
  · show loadQ (afterPrologue m).mem ((afterPrologue m).rsp + BitVec.ofNat 64 (9 + 24)) = _
    rw [hbase]
    simp (disch := omega) only [afterPrologue, loadQ_storeQ_of_offsets, loadQ_storeQ]
  · show loadQ (afterPrologue m).mem ((afterPrologue m).rsp + BitVec.ofNat 64 (9 + 8)) = _
    rw [hbase]
    simp (disch := omega) only [afterPrologue, loadQ_storeQ_of_offsets, loadQ_storeQ]
  · show loadQ (afterPrologue m).mem ((afterPrologue m).rsp + BitVec.ofNat 64 (9 + 32)) = _
    rw [hbase, afterPrologue, loadQ_storeQ]
  all_goals simp [frameOf, afterPrologue]

/-- What a handler sees of a caller who used `syscall`. -/
theorem viewBySyscall_eq (arity : Nat) (m : Machine) :
    viewBySyscall arity m = some (viewOf arity (frameOf (afterPrologue m))) := by
  obtain ⟨m', hrun, hsaved⟩ := saveAndCall_spec (afterPrologue m)
  rw [viewBySyscall, run_syscallEntry, hrun, Option.map_some, hsaved.frame]

/-- What a handler sees of a caller who used `int 0x80`. -/
theorem viewByInt80_eq (arity : Nat) (ist : Addr) (m : Machine) :
    viewByInt80 arity ist m = some (viewOf arity (interruptFrame 0x80 m)) := by
  obtain ⟨m', hrun, hframe, -⟩ := isr_spec 0x80 (by decide) ist m
  rw [viewByInt80, hrun, Option.map_some, hframe]

/-! ## Returning -/

/-- `syscall_entry` after the call of `syscallHandler`. The last `pop` loads the stack pointer
itself. -/
def syscallReturn : List Instr :=
  restoreAfterCall ++ [.pop .rcx, .add .rsp 8, .pop .r11, .pop .rsp, .sysretq]

/-- `isr_common_stub` after the call of `intHandler`. -/
def isrReturn : List Instr := restoreAfterCall ++ [.iretq]

/-- What the user gets back. The status flags are among what `sysret` loads, the other bits of
`rflags` need not be. -/
structure Returned (m m' : Machine) : Prop where
  gpr : ∀ r, r ≠ .rax → r ≠ .rcx → r ≠ .r11 → m'.gpr r = m.gpr r
  rip : m'.rip = m.rip
  fpu : m'.fpu = m.fpu

theorem afterPrologue_gpr (m : Machine) {r : Reg} (h1 : r ≠ .rcx) (h2 : r ≠ .r11)
    (h3 : r ≠ .rsp) : (afterPrologue m).gpr r = m.gpr r := by
  simp only [afterPrologue, update_of_ne h3, update_of_ne h2, update_of_ne h1]

variable {m m₁ m₂ : Machine}

/-- The way back of `syscall` restores the user's registers, whatever the handler has done
within the calling convention. The selectors are those `sysret` loads. -/
theorem syscall_return (hrun : run syscallEntry (syscall m) = some m₁)
    (hc : Called (m₁.gpr .rdi) m₁ m₂) :
    ∃ m3, run syscallReturn m₂ = some m3 ∧ Returned m m3 ∧ m3.cs = userCs ∧ m3.ss = userSs := by
  obtain ⟨m', hrun', hs⟩ := saveAndCall_spec (afterPrologue m)
  obtain rfl : m' = m₁ := Option.some.inj (hrun'.symm.trans ((run_syscallEntry m).symm.trans hrun))
  rw [hs.arg] at hc
  obtain ⟨g, hrestore, hrsp, -, hregs⟩ := restoreAfterCall_spec hs hc
  have hframe := frameOf_afterPrologue m
  set a := (afterPrologue m).rsp
  -- the three words the code pops are those the entry code has stored
  have hrip : loadQ m₂.mem (a + 9) = m.rip :=
    (hc.word hs (o := 9) (by omega)).trans hframe.rip
  have hflags : loadQ m₂.mem (a + 9 + 8 + BitVec.ofNat 64 8) = m.rflags := by
    have e : a + 9 + 8 + BitVec.ofNat 64 8 = a + BitVec.ofNat 64 25 := by
      show a + 9 + 8 + 8 = a + 25
      ring
    rw [e]
    exact (hc.word hs (by omega)).trans hframe.rflags
  have hsp : loadQ m₂.mem (a + 9 + 8 + BitVec.ofNat 64 8 + 8) = m.rsp := by
    have e : a + 9 + 8 + BitVec.ofNat 64 8 + 8 = a + BitVec.ofNat 64 33 := by
      show a + 9 + 8 + 8 + 8 = a + 33
      ring
    rw [e]
    exact (hc.word hs (by omega)).trans hframe.rsp
  refine ⟨{ m₂ with
      gpr := update (update (update g .rcx m.rip) .r11 m.rflags) .rsp m.rsp
      fpu := m.fpu
      rip := m.rip
      rflags := (m.rflags &&& 0x3c7fd7) ||| 2
      cs := userCs
      ss := userSs }, ?_, ?_, rfl, rfl⟩
  · rw [syscallReturn, run_append, hrestore]
    have hfpu : (afterPrologue m).fpu = m.fpu := rfl
    -- of the values the stack pointer goes through only the last stays
    have hswap : ∀ (g : Reg → BitVec 64) (x y z v w : BitVec 64),
        update (update (update (update (update g .rsp x) .rcx v) .rsp z) .r11 w) .rsp y
          = update (update (update g .rcx v) .r11 w) .rsp y := by
      intro g x y z v w
      rw [update_comm (by decide : Reg.rsp ≠ .rcx), update_idem,
        update_comm (by decide : Reg.rsp ≠ .r11), update_idem]
    simp only [run, exec, Machine.setReg, Machine.rsp, Option.bind_some, update_self, update_idem,
      ne_eq, reduceCtorEq, not_false_eq_true, update_of_ne, hrsp, hrip, hflags, hsp, hfpu, hswap]
  · refine ⟨fun r h1 h2 h3 => ?_, rfl, rfl⟩
    by_cases hr : r = .rsp
    · subst hr
      simp only [update_self, Machine.rsp]
    · show update _ _ _ r = _
      rw [update_of_ne hr, update_of_ne h3, update_of_ne h2, hregs r h1 hr,
        afterPrologue_gpr m h2 h3 hr]

/-- The code after the call of `intHandler`, with the frame of the interrupted machine `m`. -/
theorem run_isrReturn {intNo : Nat} {m0 : Machine} (hframe : frameOf m0 = interruptFrame intNo m)
    (hs : Saved m0 m₁) (hc : Called (m0.rsp - 120) m₁ m₂) :
    ∃ m3, run isrReturn m₂ = some m3 ∧ m3.rip = m.rip ∧ m3.cs = m.cs ∧ m3.ss = m.ss
      ∧ m3.rsp = m.rsp ∧ m3.fpu = m0.fpu
      ∧ ∀ r, r ≠ .rax → r ≠ .rsp → m3.gpr r = m0.gpr r := by
  obtain ⟨g, hrestore, hrsp, -, hregs⟩ := restoreAfterCall_spec hs hc
  -- the words `iretq` pops are those the processor has pushed
  have hword : ∀ {a : Addr} {o : Nat} {w : BitVec 64}, o + 8 ≤ 49 →
      loadQ m0.mem (m0.rsp + BitVec.ofNat 64 o) = w → a = m0.rsp + BitVec.ofNat 64 o →
      loadQ m₂.mem a = w := by
    intro a o w ho hw ha
    rw [ha, hc.word hs ho, hw]
  have hshift : ∀ n : Addr, g .rsp + n = m0.rsp + (9 + n) := by
    intro n
    rw [hrsp, BitVec.add_assoc]
  simp only [frameOf, interruptFrame, InterruptState.mk.injEq] at hframe
  obtain ⟨-, -, -, -, -, -, -, -, -, -, -, -, -, -, -, -, -, hrip0, hcs0, -, hsp0, hss0⟩ := hframe
  have hrip : loadQ m₂.mem (g .rsp) = m.rip := hword (o := 9) (by omega) hrip0 hrsp
  have hcs : loadQ m₂.mem (g .rsp + 8) = m.cs.setWidth 64 :=
    hword (o := 17) (by omega) hcs0 (hshift 8)
  have hsp : loadQ m₂.mem (g .rsp + 24) = m.rsp := hword (o := 33) (by omega) hsp0 (hshift 24)
  have hss : loadQ m₂.mem (g .rsp + 32) = m.ss.setWidth 64 :=
    hword (o := 41) (by omega) hss0 (hshift 32)
  have hback : ∀ x : BitVec 16, (x.setWidth 64).setWidth 16 = x := fun x => by simp
  have hiretq : run isrReturn m₂ = some { m₂ with
      gpr := update g .rsp m.rsp
      rip := m.rip
      rflags := loadQ m₂.mem (g .rsp + 16)
      cs := m.cs
      ss := m.ss
      fpu := m0.fpu } := by
    rw [isrReturn, run_append, hrestore]
    simp only [run, exec, Machine.rsp, Option.bind_some]
    rw [hrip, hcs, hss, hsp, hback, hback, Machine.rsp]
  refine ⟨_, hiretq, rfl, rfl, rfl, ?_, rfl, fun r h1 h2 => ?_⟩
  · simp only [Machine.rsp, update_self]
  · show update g .rsp m.rsp r = m0.gpr r
    rw [update_of_ne h2, hregs r h1 h2]

/-- The way back of `int 0x80`. The selectors are those of the caller. -/
theorem int80_return {ist : Addr}
    (hrun : run (isr 0x80) (interrupt ist m) = some m₁) (hc : Called (m₁.gpr .rdi) m₁ m₂) :
    ∃ m3, run isrReturn m₂ = some m3 ∧ Returned m m3 ∧ m3.cs = m.cs ∧ m3.ss = m.ss := by
  rw [run_isr] at hrun
  have hframe := frameOf_afterIsr (by decide : 0x80 < 256) ist m
  have hgpr : ∀ r, r ≠ .rsp → (afterIsr 0x80 (interrupt ist m)).gpr r = m.gpr r := by
    intro r hr
    simp only [afterIsr, interrupt, update_of_ne hr]
  have hfpu : (afterIsr 0x80 (interrupt ist m)).fpu = m.fpu := rfl
  obtain ⟨m0, hm0⟩ : ∃ m0, m0 = afterIsr 0x80 (interrupt ist m) := ⟨_, rfl⟩
  rw [← hm0] at hrun hframe hgpr hfpu
  obtain ⟨m', hrun', hs⟩ := saveAndCall_spec m0
  obtain rfl : m' = m₁ := Option.mem_unique hrun' hrun
  rw [hs.arg] at hc
  obtain ⟨m3, hback, hrip, hcs, hss, hsp, hfpu3, hregs⟩ := run_isrReturn hframe hs hc
  refine ⟨m3, hback, ⟨fun r h1 _ _ => ?_, hrip, hfpu3.trans hfpu⟩, hcs, hss⟩
  by_cases hr : r = .rsp
  · rw [hr]
    exact hsp
  · rw [hregs r h1 hr, hgpr r hr]

/-! ## The two paths compared -/

/-- A handler of `arity` arguments cannot tell by which path it was called, and the caller gets
its registers back from both. -/
structure PathsAgree (arity : Nat) (ist : Addr) (m : Machine) : Prop where
  view : viewBySyscall arity m = viewByInt80 arity ist (int80Convention m)
  syscallReturns : ∀ m₁ m₂, run syscallEntry (syscall m) = some m₁ → Called (m₁.gpr .rdi) m₁ m₂ →
    ∃ m₃, run syscallReturn m₂ = some m₃ ∧ Returned m m₃
  int80Returns : ∀ m₁ m₂, run (isr 0x80) (interrupt ist (int80Convention m)) = some m₁ →
    Called (m₁.gpr .rdi) m₁ m₂ →
    ∃ m₃, run isrReturn m₂ = some m₃ ∧ Returned (int80Convention m) m₃

/-- The fields in which the two views are the same, and those in which they are not. -/
theorem views_compared (arity : Nat) (ist : Addr) (m : Machine) :
    ∃ v w, viewBySyscall arity m = some v ∧ viewByInt80 arity ist (int80Convention m) = some w
      ∧ v.rip = w.rip ∧ v.rsp = w.rsp ∧ v.rflags = w.rflags
      ∧ v.cs = 0x08 ∧ w.cs = m.cs.setWidth 64 ∧ v.ss = 0x10 ∧ w.ss = m.ss.setWidth 64
      ∧ (v.args = w.args ↔ arity ≤ 3 ∨ m.gpr .r10 = 0x10) := by
  have hf := frameOf_afterPrologue m
  refine ⟨_, _, viewBySyscall_eq arity m, viewByInt80_eq arity ist _, hf.rip, ?_, hf.rflags, hf.cs,
    rfl, hf.ss, rfl, ?_⟩
  · rw [viewOf, hf.rsp]
    rfl
  · -- the fourth argument is the first to be in another register
    match arity with
    | 0 | 1 | 2 | 3 =>
      simp [viewOf, sysCallExecutor, interruptFrame, int80Convention, Machine.setReg, hf.rdi,
        hf.rsi, hf.rdx]
    | 4 | n + 5 =>
      simp [viewOf, sysCallExecutor, interruptFrame, int80Convention, Machine.setReg, hf.rdi,
        hf.rsi, hf.rdx, hf.rcx, hf.r8, eq_comm]

/-- **The paths never agree.** No user program has the kernel's code selector, which is what
`syscall_entry` reports. -/
theorem syscall_paths_disagree (arity : Nat) (ist : Addr) (m : Machine)
    (huser : m.cs.toNat % 4 = 3) : ¬ PathsAgree arity ist m := by
  intro h
  obtain ⟨v, w, hv, hw, -, -, -, hvcs, hwcs, -⟩ := views_compared arity ist m
  have hvw : v = w := by
    have := h.view
    rw [hv, hw] at this
    exact Option.some.inj this
  have hcs : (0x08 : BitVec 64) = m.cs.setWidth 64 := by rw [← hvcs, hvw, hwcs]
  have hnat : 8 = m.cs.toNat := by
    have h8 := congrArg BitVec.toNat hcs
    rw [BitVec.toNat_setWidth] at h8
    have := m.cs.isLt
    have h8' : (0x08 : BitVec 64).toNat = 8 := rfl
    omega
  omega

/-- A user program about to make a call with the arguments 1, 2, 3, 5. -/
def callingMachine : Machine where
  gpr := fun r => match r with
    | .rdi => 1
    | .rsi => 2
    | .rdx => 3
    | .r10 => 5
    | _ => 0
  rip := 0x400000
  rflags := 0x202
  cs := userCs
  ss := userSs
  fsBase := 0
  fpu := fun _ => 0
  mem := fun _ => 0
  kernelStack := 0xffffffff90004000
  rspSave := 0

theorem syscall_paths_disagree_callingMachine :
    callingMachine.cs.toNat % 4 = 3 ∧ ¬ PathsAgree 4 0xffffffff90004000 callingMachine :=
  ⟨by decide, syscall_paths_disagree 4 _ callingMachine (by decide)⟩

/-- The handler of this call gets 16 for its fourth argument where `int 0x80` passes 5, and it
finds the kernel's selectors in the frame. -/
theorem fourth_argument_is_lost :
    ∃ v w, viewBySyscall 4 callingMachine = some v
      ∧ viewByInt80 4 0xffffffff90004000 (int80Convention callingMachine) = some w
      ∧ v.args = [1, 2, 3, 0x10] ∧ w.args = [1, 2, 3, 5]
      ∧ v.cs = 0x08 ∧ w.cs = 0x23 ∧ v.ss = 0x10 ∧ w.ss = 0x1b := by
  have hf := frameOf_afterPrologue callingMachine
  refine ⟨_, _, viewBySyscall_eq 4 _, viewByInt80_eq 4 _ _, ?_, rfl, hf.cs, rfl, hf.ss, rfl⟩
  rfl

end Flix.Cpu

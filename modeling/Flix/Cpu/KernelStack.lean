import Flix.Cpu.Syscall
import Flix.Lib.Runs

/-!
# Kernel entries on one stack

Every gate of the interrupt table names interrupt stack 1, and with an interrupt
stack the processor starts at its top whatever the stack pointer is. The
`syscall` entry starts at `kernelStack`. `tryScheduleNext` sets both to the top of
the task's kernel stack.

So an entry lands where every other entry of the task lands. This is harmless as
long as entries do not nest. They do: a handler may touch a page that is mapped
but deferred, and `syscall` leaves interrupts enabled.
-/

namespace Flix.Cpu.KernelStack

open Function Space Runs

/-! ## Entries -/

inductive Entry where
  | syscall
  /-- `int 0x80`, an interrupt, or an exception without an error code. -/
  | gate (intNo : Nat)
  /-- An exception with an error code. -/
  | fault (intNo : Nat) (code : BitVec 64)
  deriving DecidableEq

/-- `ISR_ERRCODE`. -/
def isrErr (intNo : Nat) : List Instr :=
  [.sub .rsp 1, .storeByte .rsp 0 intNo] ++ isrCommonStub

/-- Up to the call of the handler. -/
def Entry.enter (ist : Addr) (m : Machine) : Entry → Option Machine
  | .syscall => run syscallEntry (Cpu.syscall m)
  | .gate intNo => run (isr intNo) (interrupt ist m)
  | .fault intNo code => run (isrErr intNo) ((interrupt ist m).pushWord code)

/-- Where the first byte is pushed below. -/
def Entry.start (ist : Addr) (m : Machine) : Entry → Addr
  | .syscall => m.kernelStack
  | .gate _ | .fault _ _ => ist - BitVec.ofNat 64 (ist.toNat % 16)

/-- The byte at `a` is among the `n` below `hi`. -/
def Occupies (hi : Addr) (n : Nat) (a : Addr) : Prop := ∃ i < n, a = hi - BitVec.ofNat 64 (i + 1)

/-! ## Runs of one task -/

/-- An entry that has not returned. -/
structure Live where
  hi : Addr
  /-- The bytes pushed by the entry code. -/
  frame : Nat
  /-- What the handler has on the stack below them. -/
  depth : Nat

structure Task where
  cpu : Machine
  ist1 : Addr
  kernelStackTop : Addr
  /-- Whether it is the active task. -/
  active : Bool
  /-- Innermost first. -/
  live : List Live

inductive Event where
  | enter (e : Entry)
  /-- The task executes, in user code or in the innermost handler. -/
  | work (m : Machine) (depth : Nat)
  /-- The innermost entry returns. -/
  | leave (m : Machine)
  /-- Another task is scheduled, with its own kernel stack. -/
  | away (stack : Addr)
  /-- `tryScheduleNext` picks this task again. -/
  | resume (m : Machine)

/-- System calls are made by user code, and interrupts taken while they are enabled. -/
def Takes (s : Task) : Entry → Prop
  | .syscall => s.live = []
  | .gate intNo =>
    intNo < 256 ∧ (intNo = 0x80 → s.live = [])
      ∧ (32 ≤ intNo ∧ intNo < 48 → s.cpu.rflags.getLsbD 9 = true)
  | .fault intNo _ => intNo < 32

instance (s : Task) (e : Entry) : Decidable (Takes s e) :=
  match e with
  | .syscall => decidable_of_iff (s.live.isEmpty = true) List.isEmpty_iff
  | .gate intNo =>
    have : Decidable (s.live = []) := decidable_of_iff (s.live.isEmpty = true) List.isEmpty_iff
    inferInstanceAs (Decidable (intNo < 256 ∧ (intNo = 0x80 → s.live = [])
      ∧ (32 ≤ intNo ∧ intNo < 48 → s.cpu.rflags.getLsbD 9 = true)))
  | .fault intNo _ => inferInstanceAs (Decidable (intNo < 32))

def step (s : Task) : Event → Option Task
  | .enter e => do
      assert (s.active = true ∧ Takes s e)
      let m ← e.enter s.ist1 s.cpu
      let hi := e.start s.ist1 s.cpu
      some { s with cpu := m, live := ⟨hi, (hi - m.rsp).toNat, 0⟩ :: s.live }
  | .work m depth => do
      assert (s.active = true)
      some { s with
        cpu := { m with kernelStack := s.cpu.kernelStack }
        live := match s.live with
          | [] => []
          | l :: ls => { l with depth := depth } :: ls }
  | .leave m =>
    match s.live with
    | [] => none
    | _ :: ls => do
        assert (s.active = true)
        some { s with cpu := { m with kernelStack := s.cpu.kernelStack }, live := ls }
  | .away stack => do
      assert (s.active = true)
      some { s with
        active := false
        ist1 := stack
        cpu := { s.cpu with kernelStack := stack } }
  | .resume m => do
      assert (s.active = false)
      some { s with
        active := true
        ist1 := s.kernelStackTop
        cpu := { m with kernelStack := s.kernelStackTop } }

/-- The bytes that entry `e` pushes are not in use by one that has not returned. -/
def KeepsLive (s : Task) (e : Entry) : Prop :=
  ∀ m, e.enter s.ist1 s.cpu = some m → ∀ a,
    Occupies (e.start s.ist1 s.cpu) (e.start s.ist1 s.cpu - m.rsp).toNat a →
    ∀ l ∈ s.live, ¬ Occupies l.hi (l.frame + l.depth) a

/-- A task that has just been scheduled for the first time. -/
structure Starts (s : Task) : Prop where
  active : s.active = true
  live : s.live = []
  ist1 : s.ist1 = s.kernelStackTop
  kernelStack : s.cpu.kernelStack = s.kernelStackTop

/-! ## How much an entry pushes -/

variable {m m' : Machine} {s : Task}

/-- The size of everything below `hi`, if the registers are pushed 49 bytes below it. -/
theorem saved_size {m0 : Machine} {hi : Addr} (hs : Saved m0 m) (h : m0.rsp = hi - 49) :
    697 ≤ (hi - m.rsp).toNat := by
  have e : hi - m.rsp = BitVec.ofNat 64 (697 + (m0.rsp - 120).toNat % 16) := by
    have hframe := frame_of_call (m0.rsp - 120)
    rw [← hs.rsp] at hframe
    have hsp : m0.rsp = hi - 49 := h
    have : m.rsp = m0.rsp - 120 - BitVec.ofNat 64 (528 + (m0.rsp - 120).toNat % 16) := by
      rw [eq_sub_iff_add_eq]
      exact hframe
    rw [this, BitVec.ofNat_add, BitVec.ofNat_add, show BitVec.ofNat 64 528 = 528 from rfl,
      show BitVec.ofNat 64 697 = 697 from rfl]
    rw [hsp]
    ring
  rw [e, BitVec.toNat_ofNat]
  omega

/-- The machine before the pushes, after `ISR_ERRCODE`. -/
def afterIsrErr (intNo : Nat) (m : Machine) : Machine :=
  { m with
    gpr := update m.gpr .rsp (m.rsp - BitVec.ofNat 64 1)
    mem := store m.mem (m.rsp - BitVec.ofNat 64 1 + BitVec.ofNat 64 0) 1 intNo }

theorem run_isrErr (intNo : Nat) (m : Machine) :
    run (isrErr intNo) m = run saveAndCall (afterIsrErr intNo m) := by
  have hstub : run [.sub .rsp 1, .storeByte .rsp 0 intNo] m = some (afterIsrErr intNo m) := by
    simp only [run, exec, Machine.setReg, Machine.rsp, afterIsrErr, bind_some, update_self]
  rw [isrErr, run_append, hstub, bind_some, isrCommonStub]

/-- Every entry gets to its handler, and has pushed at least 697 bytes then. -/
theorem Entry.enter_size (e : Entry) (ist : Addr) (m : Machine) :
    ∃ m', e.enter ist m = some m' ∧ 697 ≤ (e.start ist m - m'.rsp).toNat := by
  cases e with
  | syscall =>
    obtain ⟨m', hrun, hs⟩ := saveAndCall_spec (afterPrologue m)
    refine ⟨m', (run_syscallEntry m).trans hrun, saved_size hs ?_⟩
    rw [afterPrologue_rsp, Entry.start]
    ring
  | gate intNo =>
    obtain ⟨m', hrun, hs⟩ := saveAndCall_spec (afterIsr intNo (interrupt ist m))
    refine ⟨m', (run_isr intNo _).trans hrun, saved_size hs ?_⟩
    rw [afterIsr_rsp, interrupt_rsp, Entry.start, show BitVec.ofNat 64 9 = 9 from rfl]
    ring
  | fault intNo code =>
    obtain ⟨m', hrun, hs⟩ :=
      saveAndCall_spec (afterIsrErr intNo ((interrupt ist m).pushWord code))
    have hrsp : (afterIsrErr intNo ((interrupt ist m).pushWord code)).rsp
        = (interrupt ist m).rsp - 8 - BitVec.ofNat 64 1 := by
      simp [afterIsrErr, Machine.pushWord, Machine.rsp]
    refine ⟨m', (run_isrErr intNo _).trans hrun, saved_size hs ?_⟩
    rw [hrsp, interrupt_rsp, Entry.start, show BitVec.ofNat 64 1 = 1 from rfl]
    ring

/-- No instruction writes the variable `kernelStack`. -/
theorem exec_kernelStack {i : Instr} (h : exec m i = some m') : m'.kernelStack = m.kernelStack := by
  cases i with
  | fxsave base | fxrstor base =>
    simp only [exec] at h
    split at h <;> cases h
    rfl
  | _ => cases h; rfl

theorem run_kernelStack {is : List Instr} (h : run is m = some m') :
    m'.kernelStack = m.kernelStack := by
  induction is generalizing m with
  | nil => cases h; rfl
  | cons i is ih =>
    obtain ⟨m1, h1, h⟩ := of_bind h
    rw [ih h, exec_kernelStack h1]

theorem Entry.enter_kernelStack {e : Entry} {ist : Addr}
    (h : e.enter ist m = some m') : m'.kernelStack = m.kernelStack := by
  have hsyscall : (Cpu.syscall m).kernelStack = m.kernelStack := rfl
  have hinterrupt : (interrupt ist m).kernelStack = m.kernelStack := rfl
  cases e with
  | syscall =>
    rw [run_kernelStack h, hsyscall]
  | gate intNo =>
    rw [run_kernelStack h, hinterrupt]
  | fault intNo code =>
    rw [run_kernelStack h, Machine.pushWord, hinterrupt]

theorem step_enter {e : Entry} (hact : s.active = true) (ht : Takes s e) :
    ∃ m, e.enter s.ist1 s.cpu = some m ∧ 697 ≤ (e.start s.ist1 s.cpu - m.rsp).toNat
      ∧ step s (.enter e) = some { s with
          cpu := m
          live := ⟨e.start s.ist1 s.cpu, (e.start s.ist1 s.cpu - m.rsp).toNat, 0⟩ :: s.live } := by
  obtain ⟨m, hm, hsize⟩ := e.enter_size s.ist1 s.cpu
  refine ⟨m, hm, hsize, ?_⟩
  simp only [step, assert_pos (And.intro hact ht), hm, bind_eq_bind, bind_some]

/-! ## Where entries land -/

/-- The top of a kernel stack, or at most 15 bytes below it. -/
def NearTop (top hi : Addr) : Prop := ∃ r < 16, hi = top - BitVec.ofNat 64 r

theorem Entry.start_nearTop (e : Entry) {ist top : Addr} (hist : ist = top)
    (hstack : m.kernelStack = top) : NearTop top (e.start ist m) := by
  subst hist
  have hgate : NearTop ist (ist - BitVec.ofNat 64 (ist.toNat % 16)) :=
    ⟨_, Nat.mod_lt _ (by decide), rfl⟩
  cases e with
  | syscall => exact ⟨0, by decide, by rw [Entry.start, hstack, BitVec.sub_zero]⟩
  | gate intNo => exact hgate
  | fault intNo code => exact hgate

/-- Whatever starts near the top and is not smaller than 17 bytes covers the byte 17 below. -/
theorem NearTop.occupies {top hi : Addr} {n : Nat} (h : NearTop top hi) (hn : 17 ≤ n) :
    Occupies hi n (top - BitVec.ofNat 64 17) := by
  obtain ⟨r, hr, rfl⟩ := h
  refine ⟨16 - r, by omega, ?_⟩
  have e : BitVec.ofNat 64 17 = BitVec.ofNat 64 r + BitVec.ofNat 64 (16 - r + 1) := by
    rw [← BitVec.ofNat_add]
    congr 1
    omega
  rw [e]
  ring

/-- What holds of the task in every run. -/
structure Inv (s : Task) : Prop where
  ist1 : s.active = true → s.ist1 = s.kernelStackTop
  kernelStack : s.active = true → s.cpu.kernelStack = s.kernelStackTop
  live : ∀ l ∈ s.live, NearTop s.kernelStackTop l.hi ∧ 697 ≤ l.frame

theorem Inv.starts (h : Starts s) : Inv s where
  ist1 _ := h.ist1
  kernelStack _ := h.kernelStack
  live l hl := by
    rw [h.live] at hl
    cases hl

/-- One event. Only an entry adds something live, and it starts near the top. -/
theorem Inv.step {s' : Task} {e : Event} (hi : Inv s) (h : step s e = some s') : Inv s' := by
  cases e with
  | enter e =>
    obtain ⟨⟨hact, -⟩, h⟩ := of_assert h
    obtain ⟨m, hm, h⟩ := of_bind h
    cases h
    obtain ⟨m', hm', hsize⟩ := e.enter_size s.ist1 s.cpu
    obtain rfl : m = m' := mem_unique hm hm'
    refine ⟨hi.ist1, fun _ => (Entry.enter_kernelStack hm).trans (hi.kernelStack hact), ?_⟩
    intro l hl
    rcases mem_cons.mp hl with rfl | hl
    · exact ⟨e.start_nearTop (hi.ist1 hact) (hi.kernelStack hact), hsize⟩
    · exact hi.live l hl
  | work m depth =>
    obtain ⟨-, h⟩ := of_assert h
    cases h
    refine ⟨hi.ist1, hi.kernelStack, ?_⟩
    cases hlive : s.live with
    | nil => nofun
    | cons l ls =>
      have hold := hi.live
      rw [hlive] at hold
      intro l' hl'
      rcases mem_cons.mp hl' with rfl | hl'
      · exact hold l mem_cons_self
      · exact hold l' (mem_cons_of_mem _ hl')
  | leave m =>
    cases hlive : s.live with
    | nil => simp only [KernelStack.step, hlive] at h; cases h
    | cons l ls =>
      simp only [KernelStack.step, hlive] at h
      obtain ⟨-, h⟩ := of_assert h
      cases h
      refine ⟨hi.ist1, hi.kernelStack, fun l' hl' => hi.live l' ?_⟩
      rw [hlive]
      exact mem_cons_of_mem _ hl'
  | away stack =>
    obtain ⟨-, h⟩ := of_assert h
    cases h
    exact ⟨nofun, nofun, hi.live⟩
  | resume m =>
    obtain ⟨-, h⟩ := of_assert h
    cases h
    exact ⟨fun _ => rfl, fun _ => rfl, hi.live⟩

/--
**When a kernel entry spares the live frames.**

In every run of a task, an entry pushes nothing over an earlier entry that has
not returned if and only if there is none.
-/
theorem entry_keeps_live_iff (s₀ : Task) (h₀ : Starts s₀) (s : Task)
    (hreach : Reach step (fun _ _ => True) s₀ s) (e : Entry) (s' : Task)
    (h : step s (.enter e) = some s') : KeepsLive s e ↔ s.live = [] := by
  have hi : Inv s := hreach.invariant (Inv.starts h₀) fun _ _ _ hi _ hs => hi.step hs
  obtain ⟨⟨hact, -⟩, -⟩ := assert_bind_eq_some.mp h
  obtain ⟨m, hm, hsize⟩ := e.enter_size s.ist1 s.cpu
  constructor
  · intro hkeeps
    -- a live entry and the new one both cover the byte 17 below the top
    refine List.eq_nil_iff_forall_not_mem.mpr fun l hl => ?_
    obtain ⟨hnear, hframe⟩ := hi.live l hl
    have hnew := e.start_nearTop (hi.ist1 hact) (hi.kernelStack hact)
    exact hkeeps m hm _ (hnew.occupies (by omega)) l hl (hnear.occupies (by omega))
  · intro hnone m _ a _ l hl
    rw [hnone] at hl
    cases hl

/-! ## A page fault in a system call -/

/-- A task in user code. -/
def userTask : Task where
  cpu := callingMachine
  ist1 := 0xffffffff90004000
  kernelStackTop := 0xffffffff90004000
  active := true
  live := []

theorem userTask_starts : Starts userTask := ⟨rfl, rfl, rfl, rfl⟩

/-- Its first system call spares everything. -/
theorem entry_keeps_live_userTask :
    ∃ s', step userTask (.enter .syscall) = some s' ∧ KeepsLive userTask .syscall := by
  obtain ⟨m, -, -, hstep⟩ := step_enter (s := userTask) (e := .syscall) rfl rfl
  exact ⟨_, hstep, (entry_keeps_live_iff userTask userTask_starts userTask .start _ _ hstep).mpr rfl⟩

/-- **A page fault in a handler** overwrites the frame of the system call. -/
theorem page_fault_overwrites_frame : ∃ s s' l a,
    step userTask (.enter .syscall) = some s ∧ step s (.enter (.fault 14 0)) = some s'
      ∧ l ∈ s.live ∧ Occupies l.hi l.frame a
      ∧ Occupies ((Entry.fault 14 0).start s.ist1 s.cpu)
          ((Entry.fault 14 0).start s.ist1 s.cpu - s'.cpu.rsp).toNat a := by
  obtain ⟨m, hm, hsize, hs⟩ := step_enter (s := userTask) (e := .syscall) rfl rfl
  have hi : Inv _ := (Inv.starts userTask_starts).step hs
  obtain ⟨m', -, hsize', hs'⟩ := step_enter (e := .fault 14 0) (s := { userTask with
    cpu := m
    live := [⟨_, (Entry.syscall.start userTask.ist1 userTask.cpu - m.rsp).toNat, 0⟩] })
    rfl (by decide : 14 < 32)
  have hlive := hi.live _ mem_cons_self
  have hnew := (Entry.fault 14 0).start_nearTop (hi.ist1 rfl) (hi.kernelStack rfl)
  have h17 : 17 ≤ 697 := by decide
  exact ⟨_, _, _, _, hs, hs', mem_cons_self, hlive.1.occupies (h17.trans hsize),
    hnew.occupies (h17.trans hsize')⟩

end Flix.Cpu.KernelStack

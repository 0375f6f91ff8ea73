import Flix.Cpu.ContextSwitch
import Flix.Cpu.Syscall
import Flix.Lib.Runs

/-!
# Privilege across `clone`

`TaskManager::clone` starts from `newUserTask`, which has the user selectors,
but then replaces the whole context by the frame of the system call. So the
child runs with the selectors the entry code has put into that frame. The
processor pushes the caller's for `int 0x80`; `syscall_entry` stores the
kernel's.

A run here is that of a user task and everything descending from it: user code,
system calls by either path, sleeping in them, preemption, `execve` and exit.
-/

namespace Flix.Cpu.Clone

open Function Space Runs

/-! ## The code -/

/-- How a task has entered the kernel. -/
inductive Path where
  | syscall
  | int80
  deriving DecidableEq

/-- Up to the call of the handler, with the interrupt stack `ist`. -/
def Path.enter (ist : Addr) (m : Machine) : Path → Option Machine
  | .syscall => run syscallEntry (Cpu.syscall m)
  | .int80 => run (isr 0x80) (interrupt ist m)

/-- From the return of the handler. -/
def Path.leave : Path → List Instr
  | .syscall => syscallReturn
  | .int80 => isrReturn

def USER_CS : BitVec 64 := 0x20
def USER_DS : BitVec 64 := 0x18

structure Task where
  context : Context
  /-- The system call the task is in: by which path, and the machine at the call of the
  handler. -/
  call : Option (Path × Machine)

/-- `newUserTask`. -/
def newUserTask : Task where
  context :=
    { r15 := 0, r14 := 0, r13 := 0, r12 := 0, rbx := 0, rbp := 0, r11 := 0, r10 := 0, r9 := 0,
      r8 := 0, rax := 0, rcx := 0, rdx := 0, rsi := 0, rdi := 0, rip := 0, rsp := 0
      cs := USER_CS ||| 0x3
      ss := USER_DS ||| 0x3
      rflags := 0x200 }
  call := none

/-- `TaskManager::clone`, as to the registers. -/
def clone (st : InterruptState) : Task :=
  let task := newUserTask
  let task := { task with context := st.toTaskContext }
  { task with context := { task.context with rax := 0 } }

/-- The handler of system call 56: "unsupported arguments ptid or regs". -/
def hndlClone (st : InterruptState) : Option Task :=
  match sysCallExecutor 5 st with
  | [_, _, ptid, _, regs] => if ptid ≠ 0 ∨ regs ≠ 0 then none else some (clone st)
  | _ => none

/-- The frame that the handler is passed. -/
def frameAt (m : Machine) : InterruptState := readInterruptState m.mem (m.gpr .rdi)

/-! ## Runs -/

/-- A user task and its descendants. -/
structure System where
  tasks : Tid → Option Task
  active : Option Tid
  cpu : Machine
  ist1 : Addr
  contextAddr : Tid → Addr
  kernelStackTop : Tid → Addr

inductive Act where
  /-- The active task executes user code, with any effect on the machine. -/
  | work (m : Machine)
  /-- It makes a system call. -/
  | enter (p : Path)
  /-- The handler adds a task. -/
  | clone (child : Tid)
  /-- The handler returns, and has left the machine so. -/
  | leave (m : Machine)
  /-- `elf::exec` has loaded a program with this stack and entry point. -/
  | execve (rsp rip : BitVec 64)
  /-- The timer interrupts user code. -/
  | preempt
  /-- The task is suspended in the kernel, by the timer or by `putMeToSleep`. -/
  | suspend (ctx : Context)
  | exit
  | schedule (t : Tid)

/-- `jump_to_task` on the context of task `t`. -/
def jump (s : System) (t : Tid) (c : Context) : Option Machine :=
  run jumpToTask { s.cpu with
    gpr := update s.cpu.gpr .rdi (s.contextAddr t)
    mem := storeWords s.cpu.mem (s.contextAddr t) c.words }

def System.setTask (s : System) (t : Tid) (T : Task) : System :=
  { s with tasks := update s.tasks t (some T) }

/-- `downgradeCurrentTask`. -/
def downgrade (c : Context) : Context := { c with cs := USER_CS ||| 0x3, ss := USER_DS ||| 0x3 }

/-- What the active task `t` does. User code runs when it is in no call. -/
def act (s : System) (t : Tid) (T : Task) : Act → Option System
  | .work m => if T.call.isNone then some { s with cpu := m } else none
  | .enter p =>
    if T.call.isNone then do
      let m ← p.enter s.ist1 s.cpu
      -- "Interrupts were disabled in a user task"
      assert (contextOk (frameAt m).cs (frameAt m).rflags)
      some { s.setTask t { T with call := some (p, m) } with cpu := m }
    else none
  | .clone child => do
      let (_, m) ← T.call
      assert ((frameAt m).rax = 56 ∧ s.tasks child = none)
      let C ← hndlClone (frameAt m)
      some (s.setTask child C)
  | .leave m => do
      let (p, _) ← T.call
      let m' ← run p.leave m
      some { s.setTask t { T with call := none } with cpu := m' }
  | .execve rsp rip => do
      let _ ← T.call
      let c := downgrade { T.context with rsp := rsp, rip := rip }
      assert (contextOk c.cs c.rflags)
      let m ← jump s t c
      some { s.setTask t { context := c, call := none } with cpu := m }
  | .preempt =>
    if T.call.isNone ∧ s.cpu.rflags.getLsbD 9 = true then do
      let m ← run (isr 32) (interrupt s.ist1 s.cpu)
      assert (contextOk (frameAt m).cs (frameAt m).rflags)
      some { s.setTask t { T with context := (frameAt m).toTaskContext } with
        cpu := m, active := none }
    else none
  | .suspend ctx => do
      let _ ← T.call
      some { s.setTask t { T with context := ctx } with active := none }
  | .exit => some { s with tasks := update s.tasks t none, active := none }
  | .schedule _ => none

/-- `tryScheduleNext` for the task picked. -/
def schedule (s : System) (t : Tid) : Option System := do
  let T ← s.tasks t
  assert (contextOk T.context.cs T.context.rflags)
  let m ← jump s t T.context
  some { s with
    active := some t
    cpu := { m with kernelStack := s.kernelStackTop t }
    ist1 := s.kernelStackTop t }

def step (s : System) (a : Act) : Option System :=
  match s.active with
  | some t => (s.tasks t).bind fun T => act s t T a
  | none =>
    match a with
    | .schedule t => schedule s t
    | _ => none

/-- The privilege level. -/
def ring (m : Machine) : Nat := m.cs.toNat % 4

/-- What the processor lets user code do, and compiled handlers do: in ring 3 the selectors
stay, and a handler follows the calling convention. -/
def Possible (s : System) : Act → Prop
  | .work m => ring s.cpu = 3 → m.cs = s.cpu.cs ∧ m.ss = s.cpu.ss
  | .leave m => ∀ t T p m₁, s.active = some t → s.tasks t = some T → T.call = some (p, m₁) →
      Called (m₁.gpr .rdi) m₁ m
  | _ => True

/-- Each clone is called through `int 0x80`. -/
def ByInt80 (s : System) : Act → Prop
  | .clone _ => ∀ t T p m₁, s.active = some t → s.tasks t = some T → T.call = some (p, m₁) →
      p = .int80
  | _ => True

/-- A context for ring 3. -/
def UserContext (c : Context) : Prop := c.cs = USER_CS ||| 0x3 ∧ c.ss = USER_DS ||| 0x3

/-- No user code is executed in another ring. -/
def UserInRing3 (s : System) : Prop :=
  ∀ t T, s.active = some t → s.tasks t = some T → T.call = none → ring s.cpu = 3

/-- The system at the start: a user task, executing its code. -/
structure Starts (s : System) (t : Tid) (T : Task) : Prop where
  active : s.active = some t
  tasks : s.tasks = update (fun _ => none) t (some T)
  user : T.call = none
  cs : s.cpu.cs = userCs
  ss : s.cpu.ss = userSs

/-! ## What the paths do to the selectors -/

/-- The machine at the call of a handler, called from ring 3. -/
def FromUser (p : Path) (m₁ : Machine) : Prop :=
  ∃ ist m, m.cs = userCs ∧ m.ss = userSs ∧ p.enter ist m = some m₁

variable {ist : Addr} {m m₁ : Machine} {p : Path} {T : Task} {child : Tid} {a : Act}

/-- The frame of `syscall` has the kernel's selectors, whoever calls. -/
theorem frameAt_syscall (h : Path.enter ist m .syscall = some m₁) :
    SyscallFrame m (frameAt m₁) := by
  obtain ⟨m', hrun, hsaved⟩ := saveAndCall_spec (afterPrologue m)
  obtain rfl : m' = m₁ :=
    Option.some.inj (hrun.symm.trans ((run_syscallEntry m).symm.trans h))
  rw [frameAt, hsaved.frame]
  exact frameOf_afterPrologue m

/-- The frame of `int 0x80` has the caller's. -/
theorem frameAt_int80 (h : Path.enter ist m .int80 = some m₁) :
    frameAt m₁ = interruptFrame 0x80 m := by
  obtain ⟨m', hrun, hframe, -⟩ := isr_spec 0x80 (by decide) ist m
  obtain rfl : m' = m₁ := mem_unique hrun h
  exact hframe

theorem userContext_interruptFrame (intNo : Nat) (hcs : m.cs = userCs)
    (hss : m.ss = userSs) : UserContext (interruptFrame intNo m).toTaskContext := by
  refine ⟨?_, ?_⟩
  · show m.cs.setWidth 64 = _
    rw [hcs]
    rfl
  · show m.ss.setWidth 64 = _
    rw [hss]
    rfl

/-- The child's context, by the path of the call. -/
theorem clone_userContext_iff (hcs : m.cs = userCs)
    (hss : m.ss = userSs) (h : p.enter ist m = some m₁) :
    UserContext (clone (frameAt m₁)).context ↔ p = .int80 := by
  cases p with
  | syscall =>
    -- the kernel's code selector is not the user's
    have hne : (0x08 : BitVec 64) ≠ USER_CS ||| 0x3 := by decide
    have hkernel : (clone (frameAt m₁)).context.cs = 0x08 := (frameAt_syscall h).cs
    exact ⟨fun hu => absurd (hkernel.symm.trans hu.1) hne, nofun⟩
  | int80 =>
    refine ⟨fun _ => rfl, fun _ => ?_⟩
    rw [frameAt_int80 h]
    exact userContext_interruptFrame 0x80 hcs hss

/-- Leaving the kernel goes to ring 3, if the kernel was entered from there. -/
theorem leave_user {m2 m3 : Machine} (hfrom : FromUser p m₁)
    (hc : Called (m₁.gpr .rdi) m₁ m2) (h : run p.leave m2 = some m3) :
    m3.cs = userCs ∧ m3.ss = userSs := by
  obtain ⟨ist, m, hcs, hss, henter⟩ := hfrom
  cases p with
  | syscall =>
    obtain ⟨m', hm', -, hcs', hss'⟩ := syscall_return henter hc
    obtain rfl : m' = m3 := mem_unique hm' h
    exact ⟨hcs', hss'⟩
  | int80 =>
    obtain ⟨m', hm', -, hcs', hss'⟩ := int80_return henter hc
    obtain rfl : m' = m3 := mem_unique hm' h
    exact ⟨hcs'.trans hcs, hss'.trans hss⟩

theorem jump_loaded (s : System) (t : Tid) (c : Context) :
    ∃ m, jump s t c = some m ∧ c.Loaded m := by
  obtain ⟨m, hrun, hloaded, -⟩ := jumpToTask_spec
    (m := { s.cpu with
      gpr := update s.cpu.gpr .rdi (s.contextAddr t)
      mem := storeWords s.cpu.mem (s.contextAddr t) c.words }) s.cpu.mem c (by simp)
  exact ⟨m, hrun, hloaded⟩

theorem jump_user {s : System} {t : Tid} {c : Context} (hu : UserContext c)
    (h : jump s t c = some m) : m.cs = userCs ∧ m.ss = userSs := by
  obtain ⟨m', hm', hloaded⟩ := jump_loaded s t c
  obtain rfl : m' = m := mem_unique hm' h
  refine ⟨hloaded.cs.trans ?_, hloaded.ss.trans ?_⟩
  · rw [hu.1]
    rfl
  · rw [hu.2]
    rfl

/-! ## The invariant -/

/-- Wherever a task will next execute user code, it does so with the user's selectors. -/
structure Inv (s : System) : Prop where
  /-- If it waits for its turn, `jump_to_task` will load them. -/
  saved : ∀ t T, s.tasks t = some T → s.active ≠ some t → T.call = none → UserContext T.context
  running : ∀ t T, s.active = some t → s.tasks t = some T → T.call = none →
    s.cpu.cs = userCs ∧ s.cpu.ss = userSs
  /-- If it is in the kernel, the way back will. -/
  called : ∀ t T p m₁, s.tasks t = some T → T.call = some (p, m₁) → FromUser p m₁

variable {s s' : System} {t : Tid}

section

variable (hi : Inv s) (hact : s.active = some t)
include hi hact

/-- A step that changes the active task and the processor. -/
theorem Inv.setActive (active : Option Tid) (hactive : active = some t ∨ active = none)
    (hsaved : active = none → T.call = none → UserContext T.context)
    (hrun : active = some t → T.call = none → m.cs = userCs ∧ m.ss = userSs)
    (hcall : ∀ p m₁, T.call = some (p, m₁) → FromUser p m₁) :
    Inv { s.setTask t T with cpu := m, active := active } where
  saved u U hU hne hnone := by
    by_cases hu : u = t
    · subst hu
      obtain rfl : T = U := by simpa [System.setTask] using hU
      exact hsaved (hactive.resolve_left hne) hnone
    · refine hi.saved u U (by simpa [System.setTask, hu] using hU) ?_ hnone
      rw [hact]
      exact fun e => hu (Option.some.inj e).symm
  running u U hu hU hnone := by
    obtain rfl : u = t := by
      rcases hactive with h | h <;> rw [h] at hu <;> cases hu
      rfl
    obtain rfl : T = U := by simpa [System.setTask] using hU
    exact hrun hu hnone
  called u U p m₁ hU hc := by
    by_cases hu : u = t
    · subst hu
      obtain rfl : T = U := by simpa [System.setTask] using hU
      exact hcall p m₁ hc
    · exact hi.called u U p m₁ (by simpa [System.setTask, hu] using hU) hc

theorem Inv.setRunning (hrun : T.call = none → m.cs = userCs ∧ m.ss = userSs)
    (hcall : ∀ p m₁, T.call = some (p, m₁) → FromUser p m₁) : Inv { s.setTask t T with cpu := m } :=
  hi.setActive hact s.active (.inl hact) (by rw [hact]; nofun) (fun _ => hrun) hcall

theorem Inv.setWaiting (hsaved : T.call = none → UserContext T.context)
    (hcall : ∀ p m₁, T.call = some (p, m₁) → FromUser p m₁) :
    Inv { s.setTask t T with cpu := m, active := none } :=
  hi.setActive hact none (.inr rfl) (fun _ => hsaved) nofun hcall

theorem Inv.user_context (hT : s.tasks t = some T) (hnone : T.call = none) {intNo : Nat} :
    UserContext (interruptFrame intNo s.cpu).toTaskContext := by
  obtain ⟨hcs, hss⟩ := hi.running t T hact hT hnone
  exact userContext_interruptFrame intNo hcs hss

/-- `clone` through `int 0x80`. -/
theorem Inv.clone (hT : s.tasks t = some T) (hcall : T.call = some (.int80, m₁))
    (hfresh : s.tasks child = none) : Inv (s.setTask child (clone (frameAt m₁))) := by
  have huser : UserContext (Clone.clone (frameAt m₁)).context := by
    obtain ⟨ist, m, hcs, hss, henter⟩ := hi.called t T _ m₁ hT hcall
    exact (clone_userContext_iff hcs hss henter).mpr rfl
  constructor
  · intro u U hU hne hnone
    by_cases hu : u = child
    · subst hu
      obtain rfl : Clone.clone (frameAt m₁) = U := by simpa [System.setTask] using hU
      exact huser
    · exact hi.saved u U (by simpa [System.setTask, hu] using hU) hne hnone
  · intro u U hu hU hnone
    have hne : u ≠ child := by
      rintro rfl
      obtain rfl : t = u := mem_unique hact hu
      rw [hT] at hfresh
      cases hfresh
    exact hi.running u U hu (by simpa [System.setTask, hne] using hU) hnone
  · intro u U p m hU hc
    by_cases hu : u = child
    · subst hu
      obtain rfl : Clone.clone (frameAt m₁) = U := by simpa [System.setTask] using hU
      cases hc
    · exact hi.called u U p m (by simpa [System.setTask, hu] using hU) hc

theorem Inv.exit : Inv { s with tasks := update s.tasks t none, active := none } := by
  have hother : ∀ {u U}, update s.tasks t none u = some U → u ≠ t ∧ s.tasks u = some U := by
    intro u U hU
    by_cases hu : u = t
    · rw [hu, update_self] at hU
      cases hU
    · exact ⟨hu, by rwa [update_of_ne hu] at hU⟩
  constructor
  · intro u U hU _ hnone
    obtain ⟨hu, hU⟩ := hother hU
    exact hi.saved u U hU (by rw [hact]; exact fun e => hu (Option.some.inj e).symm) hnone
  · nofun
  · intro u U p m hU hc
    exact hi.called u U p m (hother hU).2 hc

end

theorem hndlClone_eq {st : InterruptState} {C : Task} (h : hndlClone st = some C) :
    C = clone st := by
  simp only [hndlClone, sysCallExecutor] at h
  split at h
  · cases h
  · exact (Option.some.inj h).symm

theorem act_clone (h : act s t T (.clone child) = some s') :
    ∃ p m₁, T.call = some (p, m₁) ∧ s.tasks child = none
      ∧ s' = s.setTask child (clone (frameAt m₁)) := by
  obtain ⟨⟨p, m₁⟩, hm, h⟩ := of_bind h
  obtain ⟨⟨-, hfresh⟩, h⟩ := of_assert h
  obtain ⟨C, hC, h⟩ := of_bind h
  cases h
  exact ⟨p, m₁, hm, hfresh, by rw [hndlClone_eq hC]⟩

/-- One step of the active task, action by action. -/
theorem Inv.act (hi : Inv s) (hact : s.active = some t) (hT : s.tasks t = some T)
    (hpossible : Possible s a) (hby : ByInt80 s a) (h : act s t T a = some s') :
    Inv s' := by
  cases a with
  | work m =>
    simp only [Clone.act] at h
    split at h <;> cases h
    have hnone : T.call = none := Option.isNone_iff_eq_none.mp ‹_›
    obtain ⟨hcs, hss⟩ := hi.running t T hact hT hnone
    obtain ⟨hcs', hss'⟩ := hpossible (by rw [ring, hcs]; decide)
    have hself : s.setTask t T = s := by
      rw [System.setTask, ← hT, update_eq_self]
    have h := hi.setRunning hact
      (fun _ => ⟨hcs'.trans hcs, hss'.trans hss⟩) (fun p m₁ hc => hi.called t T p m₁ hT hc)
    rwa [hself] at h
  | enter p =>
    simp only [Clone.act] at h
    split at h
    · have hnone : T.call = none := Option.isNone_iff_eq_none.mp ‹_›
      obtain ⟨m, hm, h⟩ := of_bind h
      obtain ⟨-, h⟩ := of_assert h
      cases h
      obtain ⟨hcs, hss⟩ := hi.running t T hact hT hnone
      refine hi.setRunning hact nofun ?_
      rintro q m₁ ⟨⟩
      exact ⟨s.ist1, s.cpu, hcs, hss, hm⟩
    · cases h
  | clone child =>
    obtain ⟨p, m₁, hm, hfresh, rfl⟩ := act_clone h
    obtain rfl : p = .int80 := hby t T p m₁ hact hT hm
    exact hi.clone hact hT hm hfresh
  | leave m =>
    obtain ⟨⟨p, m₁⟩, hm, h⟩ := of_bind h
    obtain ⟨m', hm', h⟩ := of_bind h
    cases h
    have hleave := leave_user (hi.called t T p m₁ hT hm) (hpossible t T p m₁ hact hT hm) hm'
    exact hi.setRunning hact (fun _ => hleave) nofun
  | execve rsp rip =>
    obtain ⟨⟨p, m₁⟩, -, h⟩ := of_bind h
    obtain ⟨-, h⟩ := of_assert h
    obtain ⟨m, hm, h⟩ := of_bind h
    cases h
    exact hi.setRunning hact (fun _ => jump_user ⟨rfl, rfl⟩ hm) nofun
  | preempt =>
    simp only [Clone.act] at h
    split at h
    · rename_i hcond
      have hnone : T.call = none := Option.isNone_iff_eq_none.mp hcond.1
      obtain ⟨m, hm, h⟩ := of_bind h
      obtain ⟨-, h⟩ := of_assert h
      cases h
      obtain ⟨m', hm', hframe, -⟩ := isr_spec 32 (by decide) s.ist1 s.cpu
      obtain rfl : m' = m := mem_unique hm' hm
      refine hi.setWaiting hact (fun _ => ?_) (fun p m₁ hc => hi.called t T p m₁ hT hc)
      rw [frameAt, hframe]
      exact hi.user_context hact hT hnone
    · cases h
  | suspend ctx =>
    obtain ⟨⟨p, m₁⟩, hm, h⟩ := of_bind h
    cases h
    -- the task is in a call, so its context is not one of user code
    exact hi.setWaiting hact (fun e => by rw [hm] at e; cases e)
      (fun p m₁ hc => hi.called t T p m₁ hT hc)
  | exit =>
    cases h
    exact hi.exit hact
  | schedule u => cases h

/-- One step. -/
theorem Inv.step (hi : Inv s) (hpossible : Possible s a) (hby : ByInt80 s a)
    (h : step s a = some s') : Inv s' := by
  unfold Clone.step at h
  cases hact : s.active with
  | some t =>
    rw [hact] at h
    obtain ⟨T, hT, h⟩ := of_bind h
    exact hi.act hact hT hpossible hby h
  | none =>
    rw [hact] at h
    cases a with
    | schedule t =>
      obtain ⟨T, hT, h⟩ := of_bind h
      obtain ⟨-, h⟩ := of_assert h
      obtain ⟨m, hm, h⟩ := of_bind h
      cases h
      constructor
      · intro u U hU _ hnone
        exact hi.saved u U hU (by rw [hact]; nofun) hnone
      · rintro u U ⟨⟩ hU hnone
        obtain rfl : T = U := mem_unique hT hU
        have hsaved := hi.saved t T hT (by rw [hact]; nofun) hnone
        exact ⟨(jump_user hsaved hm).1, (jump_user hsaved hm).2⟩
      · exact hi.called
    | _ => cases h

theorem Inv.starts (h : Starts s t T) : Inv s := by
  have htask : ∀ {u U}, s.tasks u = some U → u = t ∧ U = T := by
    intro u U hU
    rw [h.tasks] at hU
    by_cases hu : u = t
    · rw [hu, update_self] at hU
      exact ⟨hu, (Option.some.inj hU).symm⟩
    · rw [update_of_ne hu] at hU
      cases hU
  constructor
  · intro u U hU hne _
    exact absurd h.active ((htask hU).1 ▸ hne)
  · exact fun _ _ _ _ _ => ⟨h.cs, h.ss⟩
  · intro u U p m₁ hU hc
    rw [(htask hU).2, h.user] at hc
    cases hc

/-- A clone in a run: the child has the user's selectors exactly if its parent has called
through `int 0x80`. -/
theorem Inv.clone_iff (hi : Inv s) (h : Clone.step s (.clone child) = some s') :
    ∃ C, s'.tasks child = some C ∧ (UserContext C.context ↔ ByInt80 s (.clone child)) := by
  unfold Clone.step at h
  cases hact : s.active with
  | none =>
    rw [hact] at h
    cases h
  | some t =>
    rw [hact] at h
    obtain ⟨T, hT, h⟩ := of_bind h
    obtain ⟨p, m₁, hcall, -, rfl⟩ := act_clone h
    obtain ⟨ist, m, hcs, hss, henter⟩ := hi.called t T p m₁ hT hcall
    refine ⟨Clone.clone (frameAt m₁), by simp [System.setTask], ?_⟩
    rw [clone_userContext_iff hcs hss henter]
    constructor
    · rintro rfl u U q m' hu hU hq
      obtain rfl : t = u := mem_unique hact hu
      obtain rfl : T = U := mem_unique hT hU
      rw [hcall] at hq
      cases hq
      rfl
    · exact fun hby => hby t T p m₁ hact hT hcall

/--
**What `clone` does to privilege.**

In a run in which every clone so far was called through `int 0x80`, no task
executes user code outside ring 3, and the next clone gives its child a context
with the user's selectors if and only if it is called that way as well.
-/
theorem clone_keeps_privilege (s₀ : System) (t : Tid) (T : Task) (hstart : Starts s₀ t T)
    (s : System) (hreach : Reach step (fun s a => Possible s a ∧ ByInt80 s a) s₀ s) :
    UserInRing3 s ∧ ∀ child s', step s (.clone child) = some s' →
      ∃ C, s'.tasks child = some C ∧ (UserContext C.context ↔ ByInt80 s (.clone child)) := by
  have hi : Inv s :=
    hreach.invariant (Inv.starts hstart) fun _ _ _ hi hok hs => hi.step hok.1 hok.2 hs
  refine ⟨fun u U hu hU hnone => ?_, fun child s' hs => hi.clone_iff hs⟩
  rw [ring, (hi.running u U hu hU hnone).1]
  decide

/-! ## A clone by each path -/

section

variable (hact : s.active = some t) (hT : s.tasks t = some T)
include hact hT

theorem step_active : step s a = act s t T a := by
  simp only [step, hact, hT, bind_some]

theorem step_enter (hnone : T.call = none) (hm : p.enter s.ist1 s.cpu = some m)
    (hok : contextOk (frameAt m).cs (frameAt m).rflags) :
    step s (.enter p) = some { s.setTask t { T with call := some (p, m) } with cpu := m } := by
  rw [step_active hact hT]
  simp only [act, hnone, Option.isNone_none, if_true, hm, assert_pos hok, bind_eq_bind,
    bind_some]

theorem step_clone {C : Task} (hcall : T.call = some (p, m)) (hrax : (frameAt m).rax = 56)
    (hfresh : s.tasks child = none) (hC : hndlClone (frameAt m) = some C) :
    step s (.clone child) = some (s.setTask child C) := by
  rw [step_active hact hT]
  simp only [act, hcall, assert_pos (And.intro hrax hfresh), hC, bind_eq_bind,
    bind_some]

theorem step_suspend {q : Path × Machine} (ctx : Context) (hcall : T.call = some q) : step s (.suspend ctx)
      = some { s.setTask t { T with context := ctx } with active := none } := by
  rw [step_active hact hT]
  simp only [act, hcall, bind_eq_bind, bind_some]

end

theorem step_schedule (hact : s.active = none) (hT : s.tasks t = some T)
    (hok : contextOk T.context.cs T.context.rflags) :
    ∃ s', step s (.schedule t) = some s' ∧ s'.active = some t ∧ s'.tasks = s.tasks
      ∧ s'.cpu.cs = T.context.cs.setWidth 16 := by
  obtain ⟨m, hjump, hloaded⟩ := jump_loaded s t T.context
  refine ⟨{ s with
    active := some t
    cpu := { m with kernelStack := s.kernelStackTop t }
    ist1 := s.kernelStackTop t }, ?_, rfl, rfl, hloaded.cs⟩
  simp only [step, hact, schedule, hT, assert_pos hok, hjump, bind_eq_bind,
    bind_some]

/-- Task 1, about to call `clone` with no arguments. -/
def solo : System where
  tasks := update (fun _ => none) 1 (some newUserTask)
  active := some 1
  cpu :=
    { gpr := fun r => if r = .rax then 56 else 0
      rip := 0x400000
      rflags := 0x200
      cs := userCs
      ss := userSs
      fsBase := 0
      fpu := fun _ => 0
      mem := fun _ => 0
      kernelStack := 0xffffffffb0004000
      rspSave := 0 }
  ist1 := 0xffffffffb0004000
  contextAddr _ := 0xfffffffff0001000
  kernelStackTop _ := 0xffffffffb0004000

theorem solo_starts : Starts solo 1 newUserTask := ⟨rfl, rfl, rfl, rfl, rfl⟩

theorem frameAt_solo (h : p.enter solo.ist1 solo.cpu = some m₁) :
    (frameAt m₁).rax = 56 ∧ (frameAt m₁).rdx = 0 ∧ (frameAt m₁).r8 = 0
      ∧ (frameAt m₁).rflags = 0x200 := by
  cases p with
  | syscall =>
    have hf := frameAt_syscall h
    exact ⟨hf.rax, hf.rdx, hf.r8, hf.rflags⟩
  | int80 =>
    rw [frameAt_int80 h]
    exact ⟨rfl, rfl, rfl, rfl⟩

/-- The calling machine enters the kernel by either path. -/
theorem solo_enters (p : Path) : ∃ m₁, p.enter solo.ist1 solo.cpu = some m₁ := by
  cases p with
  | syscall =>
    obtain ⟨m₁, hrun, -⟩ := saveAndCall_spec (afterPrologue solo.cpu)
    exact ⟨m₁, (run_syscallEntry _).trans hrun⟩
  | int80 =>
    obtain ⟨m₁, hrun, -⟩ := isr_spec 0x80 (by decide) solo.ist1 solo.cpu
    exact ⟨m₁, hrun⟩

/-- Task 1 clones itself by path `p` and is preempted, and the child gets its turn. -/
theorem solo_clones (ok : System → Act → Prop) (p : Path)
    (hok : ∀ s a, (∀ t T q m₁, s.active = some t → s.tasks t = some T →
      T.call = some (q, m₁) → q = p) → (∀ m, a ≠ .work m) → (∀ m, a ≠ .leave m) → ok s a) :
    ∃ m₁ s, p.enter solo.ist1 solo.cpu = some m₁ ∧ Reach step ok solo s
      ∧ s.active = some 2 ∧ s.tasks 2 = some (clone (frameAt m₁))
      ∧ s.cpu.cs = (clone (frameAt m₁)).context.cs.setWidth 16 := by
  obtain ⟨m₁, h⟩ := solo_enters p
  obtain ⟨hrax, hrdx, hr8, hflags⟩ := frameAt_solo h
  have hctx : contextOk (frameAt m₁).cs (frameAt m₁).rflags := .inr (by rw [hflags]; decide)
  have hclone : hndlClone (frameAt m₁) = some (clone (frameAt m₁)) := by
    simp [hndlClone, sysCallExecutor, hrdx, hr8]
  -- only task 1 is active until the child is scheduled, and it is in a call by path `p`
  have hpath : ∀ {s : System} {a : Act} {T : Task}, s.active = some 1 → s.tasks 1 = some T →
      (∀ q m, T.call = some (q, m) → q = p) → (∀ m, a ≠ .work m) → (∀ m, a ≠ .leave m) →
      ok s a := by
    intro s a T hact hT hq hw hl
    refine hok s a (fun t T' q m ht hT' hc => ?_) hw hl
    obtain rfl : 1 = t := mem_unique hact ht
    obtain rfl := mem_unique hT hT'
    exact hq q m hc
  have h1 := step_enter rfl rfl rfl h hctx
  obtain ⟨s1, hs1⟩ : ∃ s1, s1 = { solo.setTask 1 { newUserTask with call := some (p, m₁) } with
    cpu := m₁ } := ⟨_, rfl⟩
  rw [← hs1] at h1
  have hact1 : s1.active = some 1 := by rw [hs1]; rfl
  have htask1 : s1.tasks 1 = some { newUserTask with call := some (p, m₁) } := by
    simp [hs1, System.setTask]
  have hfresh1 : s1.tasks 2 = none := by simp [hs1, System.setTask, solo]
  have h2 := step_clone hact1 htask1 rfl hrax hfresh1 hclone
  obtain ⟨s2, hs2⟩ : ∃ s2, s2 = s1.setTask 2 (clone (frameAt m₁)) := ⟨_, rfl⟩
  rw [← hs2] at h2
  have hact2 : s2.active = some 1 := by rw [hs2]; exact hact1
  have htask2 : s2.tasks 1 = some { newUserTask with call := some (p, m₁) } := by
    simp [hs2, System.setTask, htask1]
  have h3 := step_suspend hact2 htask2 newUserTask.context rfl
  obtain ⟨s3, hs3⟩ : ∃ s3, s3 = { s2.setTask 1 { newUserTask with call := some (p, m₁) } with
    active := none } := ⟨_, rfl⟩
  rw [← hs3] at h3
  have hchild : s3.tasks 2 = some (clone (frameAt m₁)) := by simp [hs3, hs2, System.setTask]
  have hact3 : s3.active = none := by rw [hs3]
  obtain ⟨s4, h4, hact4, htasks4, hcs4⟩ := step_schedule hact3 hchild hctx
  have hcall : ∀ q m, some (p, m₁) = some (q, m) → q = p := by
    intro q m hq
    cases hq
    rfl
  refine ⟨m₁, s4, h, ?_, hact4, by rw [htasks4, hchild], hcs4⟩
  refine (((Reach.start.tail ?_ h1).tail ?_ h2).tail ?_ h3).tail ?_ h4
  · exact hpath rfl rfl (fun q m hc => by cases hc) (by simp) (by simp)
  · exact hpath hact1 htask1 hcall (by simp) (by simp)
  · exact hpath hact2 htask2 hcall (by simp) (by simp)
  · exact hok _ _ (fun t T q m ht => by rw [hact3] at ht; cases ht) (by simp) (by simp)

/-- By `int 0x80`, the child executes in ring 3. -/
theorem clone_keeps_privilege_int80 : ∃ s, Reach step (fun s a => Possible s a ∧ ByInt80 s a) solo s
    ∧ s.active = some 2 ∧ ring s.cpu = 3 := by
  obtain ⟨m₁, s, -, hreach, hact, htask, -⟩ :=
    solo_clones (fun s a => Possible s a ∧ ByInt80 s a) .int80 (by
      intro s a hpath hw hl
      cases a with
      | work m => exact absurd rfl (hw m)
      | leave m => exact absurd rfl (hl m)
      | clone child => exact ⟨trivial, hpath⟩
      | _ => exact ⟨trivial, trivial⟩)
  exact ⟨s, hreach, hact,
    (clone_keeps_privilege solo 1 newUserTask solo_starts s hreach).1 2 _ hact htask rfl⟩

/-- **By `syscall`, it executes in ring 0.** -/
theorem syscall_clone_runs_in_ring0 : ∃ s C, Reach step Possible solo s
    ∧ s.active = some 2 ∧ s.tasks 2 = some C ∧ C.call = none
    ∧ C.context.cs = 0x08 ∧ C.context.ss = 0x10 ∧ ring s.cpu = 0 := by
  obtain ⟨m₁, s, henter, hreach, hact, htask, hcs'⟩ := solo_clones Possible .syscall (by
    intro s a _ hw hl
    cases a with
    | work m => exact absurd rfl (hw m)
    | leave m => exact absurd rfl (hl m)
    | _ => trivial)
  have hcs : (clone (frameAt m₁)).context.cs = 0x08 := (frameAt_syscall henter).cs
  refine ⟨s, _, hreach, hact, htask, rfl, hcs, (frameAt_syscall henter).ss, ?_⟩
  rw [ring, hcs', hcs]
  rfl

end Flix.Cpu.Clone

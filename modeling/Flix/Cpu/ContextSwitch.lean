import Flix.Cpu.Frame

/-!
# Preemption

The way of a task through a context switch. The timer stub leaves its registers
on the interrupt stack as an `InterruptState`; the handler copies that field by
field into the `Context` of the task; and when the task's turn comes again,
`jump_to_task` takes the `Context` for its stack and pops the registers off it.

The stub also saves the FPU, but only on the interrupt stack, for the code after
the call of the handler, which a context switch never returns to. The base of
segment `fs` is saved nowhere. So these two come back as whoever ran last left
them.
-/

namespace Flix.Cpu

open Function Space

abbrev Tid := Nat

/-- `Task::Context`. -/
structure Context where
  r15 : BitVec 64
  r14 : BitVec 64
  r13 : BitVec 64
  r12 : BitVec 64
  rbx : BitVec 64
  rbp : BitVec 64
  r11 : BitVec 64
  r10 : BitVec 64
  r9 : BitVec 64
  r8 : BitVec 64
  rax : BitVec 64
  rcx : BitVec 64
  rdx : BitVec 64
  rsi : BitVec 64
  rdi : BitVec 64
  rip : BitVec 64
  cs : BitVec 64
  rflags : BitVec 64
  rsp : BitVec 64
  ss : BitVec 64

/-- The object in memory, from its address upwards. -/
def Context.words (c : Context) : List (BitVec 64) :=
  [c.r15, c.r14, c.r13, c.r12, c.rbx, c.rbp, c.r11, c.r10, c.r9, c.r8, c.rax, c.rcx, c.rdx,
   c.rsi, c.rdi, c.rip, c.cs, c.rflags, c.rsp, c.ss]

/-- `InterruptState::toTaskContext`. -/
def InterruptState.toTaskContext (s : InterruptState) : Context where
  r15 := s.r15
  r14 := s.r14
  r13 := s.r13
  r12 := s.r12
  rbx := s.rbx
  rbp := s.rbp
  r11 := s.r11
  r10 := s.r10
  r9 := s.r9
  r8 := s.r8
  rax := s.rax
  rcx := s.rcx
  rdx := s.rdx
  rsi := s.rsi
  rdi := s.rdi
  rip := s.rip
  cs := s.cs
  rflags := s.rflags
  rsp := s.rsp
  ss := s.ss

/-- The registers `jump_to_task` pops. -/
def poppedRegs : List Reg :=
  [.r15, .r14, .r13, .r12, .rbx, .rbp, .r11, .r10, .r9, .r8, .rax, .rcx, .rdx, .rsi, .rdi]

/-- `jump_to_task`. -/
def jumpToTask : List Instr := [.mov .rsp .rdi] ++ poppedRegs.map .pop ++ [.iretq]

/-! ## The kernel -/

/-- Whose code the processor executes. -/
inductive Mode where
  | running (t : Tid)
  /-- The kernel, interrupts disabled, on its way to `scheduleNext`. -/
  | kernel
  /-- `hlt` in `enterSleep`. -/
  | idle
  deriving DecidableEq

structure Kernel where
  cpu : Machine
  mode : Mode
  /-- `Task::context`, by task. -/
  contexts : Tid → Context
  /-- Where the task's `context` is in memory, and the top of its kernel stack. -/
  contextAddr : Tid → Addr
  kernelStackTop : Tid → Addr
  /-- `ist1` of the task state segment. -/
  ist1 : Addr
  /-- `Symbols::getStackBase()`. -/
  stackBase : Addr

inductive Event where
  /-- The running task executes its own code, with any effect on the registers and memory. -/
  | work (m : Machine)
  /-- It calls `arch_prctl`. -/
  | archPrctl (code : Nat) (addr : BitVec 64)
  | timer
  /-- It goes to sleep in the kernel, `task_save` having saved `ctx`. -/
  | sleep (ctx : Context)
  /-- `terminateCurrentTask`. -/
  | exit
  /-- `scheduleNext` picks `next`. The C++ code since the stub may have used the FPU. -/
  | schedule (fpu : Option FxImage) (next : Option Tid)

def SYSTEM_CS : BitVec 64 := 0x08

/-- "Interrupts were disabled in a user task" does not hold of these. -/
def contextOk (cs rflags : BitVec 64) : Prop := cs = SYSTEM_CS ∨ rflags.getLsbD 9 = true

instance (cs rflags : BitVec 64) : Decidable (contextOk cs rflags) :=
  inferInstanceAs (Decidable (_ ∨ _))

/-- `saveCurrentTask`. -/
def saveCurrentTask (k : Kernel) (t : Tid) (ctx : Context) : Option Kernel :=
  if contextOk ctx.cs ctx.rflags then
    some { k with contexts := update k.contexts t ctx, mode := .kernel }
  else none

/-- The timer interrupt up to `scheduleNext`: the stub, `Interrupt::handle`, and the
context of the interrupted task. -/
def timer (k : Kernel) : Option Kernel :=
  -- the processor takes no interrupt while they are disabled
  if k.cpu.rflags.getLsbD 9 = true then do
    let m ← run (isr 32) (interrupt k.ist1 k.cpu)
    let s := readInterruptState m.mem (m.gpr .rdi)
    if contextOk s.cs s.rflags then
      match k.mode with
      | .running t => saveCurrentTask { k with cpu := m } t s.toTaskContext
      | .idle => some { k with cpu := m, mode := .kernel }
      | .kernel => none
    else none
  else none

/-- `tryScheduleNext` for the task picked, and `enterSleep` if there is none. -/
def schedule (k : Kernel) (fpu : Option FxImage) : Option Tid → Option Kernel
  | some t =>
    if contextOk (k.contexts t).cs (k.contexts t).rflags then do
      let m ← run jumpToTask { k.cpu with
        fpu := fpu.getD k.cpu.fpu
        gpr := update k.cpu.gpr .rdi (k.contextAddr t)
        mem := storeWords k.cpu.mem (k.contextAddr t) (k.contexts t).words
        kernelStack := k.kernelStackTop t }
      some { k with cpu := m, mode := .running t, ist1 := k.kernelStackTop t }
    else none
  | none =>
    some { k with
      cpu := { k.cpu with
        fpu := fpu.getD k.cpu.fpu
        rflags := k.cpu.rflags ||| 0x200
        kernelStack := k.stackBase }
      mode := .idle
      ist1 := k.stackBase }

def step (k : Kernel) : Event → Option Kernel
  | .work m =>
    match k.mode with
    | .running _ => some { k with cpu := { m with fsBase := k.cpu.fsBase } }
    | _ => none
  | .archPrctl code addr =>
    match k.mode with
    | .running _ =>
      some { k with cpu := { k.cpu with
        fsBase := if code = 0x1002 then addr else k.cpu.fsBase } }
    | _ => none
  | .timer => timer k
  | .sleep ctx =>
    match k.mode with
    | .running t =>
      -- "putMeToSleep called from userspace"
      if ctx.cs = SYSTEM_CS then
        some { k with contexts := update k.contexts t ctx, mode := .kernel }
      else none
    | _ => none
  | .exit =>
    match k.mode with
    | .running _ => some { k with mode := .kernel }
    | _ => none
  | .schedule fpu next =>
    match k.mode with
    | .kernel => schedule k fpu next
    | _ => none

/-! ## Saving and restoring -/

/-- The general registers of a context. -/
def Context.gpr (c : Context) : Reg → BitVec 64
  | .rax => c.rax
  | .rbx => c.rbx
  | .rcx => c.rcx
  | .rdx => c.rdx
  | .rsi => c.rsi
  | .rdi => c.rdi
  | .rbp => c.rbp
  | .rsp => c.rsp
  | .r8 => c.r8
  | .r9 => c.r9
  | .r10 => c.r10
  | .r11 => c.r11
  | .r12 => c.r12
  | .r13 => c.r13
  | .r14 => c.r14
  | .r15 => c.r15

/-- The machine has the registers of the context. -/
structure Context.Loaded (c : Context) (m : Machine) : Prop where
  gpr : m.gpr = c.gpr
  rip : m.rip = c.rip
  cs : m.cs = c.cs.setWidth 16
  rflags : m.rflags = c.rflags
  ss : m.ss = c.ss.setWidth 16

theorem loadQ_context {mem : Memory} {a b : Addr} {c : Context} {i : Nat} {w : BitVec 64}
    (hb : b = a + BitVec.ofNat 64 (8 * i)) (hw : c.words[i]? = some w) :
    loadQ (storeWords mem a c.words) b = w := by
  have hi : i < 20 := (List.getElem?_eq_some_iff.mp hw).1
  have hword := getElem?_loadWords (storeWords mem a c.words) (a := a) hi
  have hall : loadWords (storeWords mem a c.words) a 20 = c.words :=
    loadWords_storeWords (by simp [Context.words])
  rw [hall, hw, ← hb] at hword
  exact (Option.some.inj hword).symm

/-- The registers are the first words of a context. -/
theorem loadWords_context (mem : Memory) (a : Addr) (c : Context) :
    loadWords (storeWords mem a c.words) a 15 = poppedRegs.map c.gpr := by
  refine List.ext_getElem? fun i => ?_
  by_cases hi : i < 15
  · have hw : c.words[i]? = (poppedRegs.map c.gpr)[i]? :=
      (List.getElem?_append_left hi : (poppedRegs.map c.gpr ++ _)[i]? = _)
    obtain ⟨w, hw'⟩ : ∃ w, (poppedRegs.map c.gpr)[i]? = some w := ⟨_, List.getElem?_eq_getElem hi⟩
    rw [getElem?_loadWords _ hi, hw', loadQ_context rfl (hw.trans hw')]
  · rw [List.getElem?_eq_none (by rw [length_loadWords]; omega), List.getElem?_eq_none]
    simp only [poppedRegs, List.length_map, List.length_cons, List.length_nil]
    omega

variable {m : Machine} {k : Kernel} {t : Tid}

theorem run_popContext {mem : Memory} {c : Context}
    (hmem : m.mem = storeWords mem (m.gpr .rdi) c.words) :
    ∃ g : Reg → BitVec 64, run ([.mov .rsp .rdi] ++ poppedRegs.map .pop) m = some
    { m with gpr := g }
      ∧ g .rsp = m.gpr .rdi + 120 ∧ ∀ r, r ≠ .rsp → g r = c.gpr r := by
  have hmov : run [.mov .rsp .rdi] m = some (m.setReg .rsp (m.gpr .rdi)) := rfl
  have hrsp : (m.setReg .rsp (m.gpr .rdi)).rsp = m.gpr .rdi := by
    simp [Machine.setReg, Machine.rsp]
  have hwords : loadWords (m.setReg .rsp (m.gpr .rdi)).mem (m.gpr .rdi) poppedRegs.length
      = poppedRegs.map c.gpr := by
    show loadWords m.mem (m.gpr .rdi) 15 = _
    rw [hmem, loadWords_context]
  refine ⟨setRegs (update (m.setReg .rsp (m.gpr .rdi)).gpr .rsp (m.gpr .rdi + 120)) poppedRegs
    (poppedRegs.map c.gpr), ?_, ?_, fun r hr => ?_⟩
  · rw [run_append, hmov, Option.bind_some, run_pop poppedRegs _ (by decide), hrsp, hwords]
    rfl
  · rw [setRegs_of_notMem (by decide), update_self]
  · exact setRegs_map (by cases r <;> simp_all [poppedRegs])

/-- `jump_to_task` loads the context it is given, and nothing else. -/
theorem jumpToTask_spec (mem : Memory) (c : Context)
    (hmem : m.mem = storeWords mem (m.gpr .rdi) c.words) :
    ∃ m', run jumpToTask m = some m' ∧ c.Loaded m' ∧ m'.fpu = m.fpu ∧ m'.fsBase = m.fsBase := by
  obtain ⟨g, hrun, hrsp, hgpr⟩ := run_popContext hmem
  -- what `iretq` finds above the registers
  have hword : ∀ {a : Addr} {i : Nat} {w : BitVec 64}, c.words[i]? = some w →
      a = m.gpr .rdi + BitVec.ofNat 64 (8 * i) → loadQ m.mem a = w := by
    intro a i w hw ha
    rw [hmem]
    exact loadQ_context ha hw
  have hshift : ∀ n : Addr, g .rsp + n = m.gpr .rdi + (120 + n) := by
    intro n
    rw [hrsp, BitVec.add_assoc]
  have hrip : loadQ m.mem (g .rsp) = c.rip := hword (i := 15) rfl hrsp
  have hcs : loadQ m.mem (g .rsp + 8) = c.cs := hword (i := 16) rfl (hshift 8)
  have hrflags : loadQ m.mem (g .rsp + 16) = c.rflags := hword (i := 17) rfl (hshift 16)
  have hsp : loadQ m.mem (g .rsp + 24) = c.rsp := hword (i := 18) rfl (hshift 24)
  have hss : loadQ m.mem (g .rsp + 32) = c.ss := hword (i := 19) rfl (hshift 32)
  have hiretq : run jumpToTask m = some { m with
      gpr := update g .rsp c.rsp
      rip := c.rip
      rflags := c.rflags
      cs := c.cs.setWidth 16
      ss := c.ss.setWidth 16 } := by
    rw [jumpToTask, run_append, hrun]
    simp only [run, exec, Machine.rsp, hrip, hcs, hrflags, hsp, hss, Option.bind_some]
  refine ⟨_, hiretq, ⟨?_, rfl, rfl, rfl, rfl⟩, rfl, rfl⟩
  funext r
  by_cases hr : r = .rsp
  · subst hr
    show update g .rsp c.rsp .rsp = c.rsp
    rw [update_self]
  · show update g .rsp c.rsp r = c.gpr r
    rw [update_of_ne hr, hgpr r hr]

/-- The context that the timer interrupt saves of a machine. -/
def contextOf (m : Machine) : Context := (interruptFrame 32 m).toTaskContext

/-- A saved context restores the machine it was saved of, as far as it goes. -/
theorem loaded_contextOf {m' : Machine} (h : (contextOf m).Loaded m') :
    m'.gpr = m.gpr ∧ m'.rip = m.rip ∧ m'.rflags = m.rflags ∧ m'.cs = m.cs ∧ m'.ss = m.ss := by
  refine ⟨h.gpr.trans ?_, h.rip, h.rflags, h.cs.trans ?_, h.ss.trans ?_⟩
  · funext r
    cases r <;> rfl
  · show (m.cs.setWidth 64).setWidth 16 = m.cs
    simp
  · show (m.ss.setWidth 64).setWidth 16 = m.ss
    simp

/-! ## Between two turns of a task -/

/-- The two machines agree on everything a task can see in its registers. -/
structure SameRegisters (m m' : Machine) : Prop where
  gpr : m'.gpr = m.gpr
  rip : m'.rip = m.rip
  rflags : m'.rflags = m.rflags
  cs : m'.cs = m.cs
  ss : m'.ss = m.ss
  fpu : m'.fpu = m.fpu
  fsBase : m'.fsBase = m.fsBase

/-- Events that take the kernel from `k` to `k'` without task `t` running. -/
inductive Away (t : Tid) : Kernel → List Event → Kernel → Prop where
  | nil {k : Kernel} : Away t k [] k
  | cons {k k₁ k₂ : Kernel} {e : Event} {es : List Event} :
      step k e = some k₁ → k₁.mode ≠ .running t → Away t k₁ es k₂ → Away t k (e :: es) k₂

/-- What an event leaves in the FPU, as nobody restores it. -/
def fpuAfter (fpu : FxImage) : Event → FxImage
  | .work m => m.fpu
  | .schedule fpu' _ => fpu'.getD fpu
  | _ => fpu

/-- What it leaves in the base of `fs`. -/
def fsAfter (fs : BitVec 64) : Event → BitVec 64
  | .archPrctl code addr => if code = 0x1002 then addr else fs
  | _ => fs

theorem timer_inv {k1 : Kernel} (h : timer k = some k1) :
    k1.mode = .kernel ∧ k1.cpu.fpu = k.cpu.fpu ∧ k1.cpu.fsBase = k.cpu.fsBase
      ∧ k1.contextAddr = k.contextAddr
      ∧ ((∃ t, k.mode = .running t ∧ k1.contexts = update k.contexts t (contextOf k.cpu))
        ∨ (k.mode = .idle ∧ k1.contexts = k.contexts)) := by
  unfold timer at h
  obtain ⟨m, hrun, hframe, hfpu, hfs⟩ := isr_spec 32 (by decide) k.ist1 k.cpu
  split at h
  · rw [hrun, Option.bind_eq_bind, Option.bind_some, hframe] at h
    dsimp only at h
    split at h
    · cases hm : k.mode with
      | running t =>
        rw [hm] at h
        dsimp only [saveCurrentTask] at h
        split at h
        · cases h
          exact ⟨rfl, hfpu, hfs, rfl, .inl ⟨t, rfl, rfl⟩⟩
        · cases h
      | idle =>
        rw [hm] at h
        cases h
        exact ⟨rfl, hfpu, hfs, rfl, .inr ⟨rfl, rfl⟩⟩
      | kernel => rw [hm] at h; cases h
    · cases h
  · cases h

/-- The timer interrupt succeeds wherever the processor takes it in a task. -/
theorem timer_running (hmode : k.mode = .running t) (hif : k.cpu.rflags.getLsbD 9 = true) :
    ∃ k1, timer k = some k1 ∧ k1.mode = .kernel ∧ k1.contexts t = contextOf k.cpu
      ∧ k1.cpu.fpu = k.cpu.fpu ∧ k1.cpu.fsBase = k.cpu.fsBase := by
  obtain ⟨m, hrun, hframe, -, -⟩ := isr_spec 32 (by decide) k.ist1 k.cpu
  have hok : contextOk (interruptFrame 32 k.cpu).cs (interruptFrame 32 k.cpu).rflags := .inr hif
  have htimer : timer k = some { k with
      cpu := m, mode := .kernel, contexts := update k.contexts t (contextOf k.cpu) } := by
    rw [timer, if_pos hif, hrun, Option.bind_eq_bind, Option.bind_some, hframe]
    rw [if_pos hok, hmode]
    exact if_pos hok
  obtain ⟨h1, h2, h3, -, -⟩ := timer_inv htimer
  exact ⟨_, htimer, h1, update_self .., h2, h3⟩

theorem schedule_some {f : Option FxImage} {u : Tid}
    (hok : contextOk (k.contexts u).cs (k.contexts u).rflags) :
    ∃ k1, schedule k f (some u) = some k1 ∧ k1.mode = .running u ∧ k1.contexts = k.contexts
      ∧ (k.contexts u).Loaded k1.cpu ∧ k1.cpu.fpu = f.getD k.cpu.fpu
      ∧ k1.cpu.fsBase = k.cpu.fsBase := by
  let m : Machine := { k.cpu with
    fpu := f.getD k.cpu.fpu
    gpr := update k.cpu.gpr .rdi (k.contextAddr u)
    mem := storeWords k.cpu.mem (k.contextAddr u) (k.contexts u).words
    kernelStack := k.kernelStackTop u }
  have hrdi : m.gpr .rdi = k.contextAddr u := by simp [m]
  obtain ⟨m', hrun, hloaded, hfpu, hfs⟩ :=
    jumpToTask_spec k.cpu.mem (k.contexts u) (by rw [hrdi])
  refine ⟨{ k with cpu := m', mode := .running u, ist1 := k.kernelStackTop u }, ?_, rfl, rfl,
    hloaded, hfpu, hfs⟩
  rw [schedule, if_pos hok, hrun]
  rfl

/-- One event while task `t` is not running leaves its context alone. -/
theorem step_away {k1 : Kernel} {e : Event} (h : step k e = some k1) (ht : k.mode ≠ .running t) :
    k1.contexts t = k.contexts t ∧ k1.cpu.fpu = fpuAfter k.cpu.fpu e
      ∧ k1.cpu.fsBase = fsAfter k.cpu.fsBase e := by
  cases e with
  | work m =>
    cases hm : k.mode <;> simp only [step, hm] at h <;> cases h
    exact ⟨rfl, rfl, rfl⟩
  | archPrctl code addr =>
    cases hm : k.mode <;> simp only [step, hm] at h <;> cases h
    exact ⟨rfl, rfl, rfl⟩
  | timer =>
    obtain ⟨-, hfpu, hfs, -, hcase⟩ := timer_inv h
    refine ⟨?_, hfpu, hfs⟩
    -- the task whose context is saved is another one
    rcases hcase with ⟨u, hu, hc⟩ | ⟨-, hc⟩
    · have hne : t ≠ u := fun e => ht (e ▸ hu)
      rw [hc, update_of_ne hne]
    · rw [hc]
  | sleep ctx =>
    cases hm : k.mode with
    | running u =>
      have hne : t ≠ u := fun e => ht (e ▸ hm)
      simp only [step, hm] at h
      split at h <;> cases h
      exact ⟨update_of_ne hne .., rfl, rfl⟩
    | kernel => simp [step, hm] at h
    | idle => simp [step, hm] at h
  | exit =>
    cases hm : k.mode <;> simp only [step, hm] at h <;> cases h
    exact ⟨rfl, rfl, rfl⟩
  | schedule fpu next =>
    cases hm : k.mode <;> simp only [step, hm] at h
    · cases h
    · cases next with
      | none => cases h; exact ⟨rfl, rfl, rfl⟩
      | some u =>
        by_cases hok : contextOk (k.contexts u).cs (k.contexts u).rflags
        · obtain ⟨k', hk, -, hc, -, hfpu, hfs⟩ := schedule_some hok
          obtain rfl : k1 = k' := Option.mem_unique h hk
          exact ⟨congrFun hc t, hfpu, hfs⟩
        · rw [schedule, if_neg hok] at h
          cases h
    · cases h

/-- Any number of events, by induction on the path. -/
theorem Away.kept {k' : Kernel} {es : List Event} (h : Away t k es k') (ht : k.mode ≠ .running t) :
    k'.contexts t = k.contexts t ∧ k'.cpu.fpu = es.foldl fpuAfter k.cpu.fpu
      ∧ k'.cpu.fsBase = es.foldl fsAfter k.cpu.fsBase := by
  induction h with
  | nil => exact ⟨rfl, rfl, rfl⟩
  | cons hs hne _ ih =>
    obtain ⟨h1, h2, h3⟩ := step_away hs ht
    obtain ⟨i1, i2, i3⟩ := ih hne
    exact ⟨i1.trans h1, by rw [i2, h2]; rfl, by rw [i3, h3]; rfl⟩

/--
**When preemption is transparent.**

A running task is interrupted by the timer; any events follow during which it
does not run; then `scheduleNext` picks it again. It resumes with all the
registers it had if and only if these events leave behind the FPU image and the
`fs` base that it had.
-/
theorem preemption_transparent_iff (k : Kernel) (t : Tid) (hmode : k.mode = .running t)
    (hif : k.cpu.rflags.getLsbD 9 = true) :
    ∃ k₁, step k .timer = some k₁ ∧ ∀ es k₂, Away t k₁ es k₂ → k₂.mode = .kernel → ∀ fpu,
      ∃ k₃, step k₂ (.schedule fpu (some t)) = some k₃ ∧ k₃.mode = .running t
        ∧ (SameRegisters k.cpu k₃.cpu ↔
          (es ++ [Event.schedule fpu (some t)]).foldl fpuAfter k.cpu.fpu = k.cpu.fpu
            ∧ es.foldl fsAfter k.cpu.fsBase = k.cpu.fsBase) := by
  obtain ⟨k₁, hk₁, hmode₁, hctx₁, hfpu₁, hfs₁⟩ := timer_running hmode hif
  refine ⟨k₁, hk₁, fun es k₂ haway hmode₂ fpu => ?_⟩
  obtain ⟨hctx₂, hfpu₂, hfs₂⟩ := haway.kept (by rw [hmode₁]; nofun)
  have hctx : k₂.contexts t = contextOf k.cpu := hctx₂.trans hctx₁
  obtain ⟨k₃, hk₃, hmode₃, -, hloaded, hfpu₃, hfs₃⟩ :=
    schedule_some (k := k₂) (f := fpu) (u := t) (by rw [hctx]; exact .inr hif)
  refine ⟨k₃, by simp only [step, hmode₂, hk₃], hmode₃, ?_⟩
  rw [hctx] at hloaded
  obtain ⟨hgpr, hrip, hrflags, hcs, hss⟩ := loaded_contextOf hloaded
  have hfpu : k₃.cpu.fpu = (es ++ [Event.schedule fpu (some t)]).foldl fpuAfter k.cpu.fpu := by
    rw [hfpu₃, hfpu₂, hfpu₁, List.foldl_append]
    rfl
  have hfs : k₃.cpu.fsBase = es.foldl fsAfter k.cpu.fsBase := by rw [hfs₃, hfs₂, hfs₁]
  rw [← hfpu, ← hfs]
  exact ⟨fun h => ⟨h.fpu, h.fsBase⟩, fun h => ⟨hgpr, hrip, hrflags, hcs, hss, h.1, h.2⟩⟩

/-! ## Two tasks -/

/-- A machine in user code, interrupts enabled, with `fpu` in the FPU. -/
def userMachine (fpu : FxImage) : Machine where
  gpr _ := 0
  rip := 0x400000
  rflags := 0x200
  cs := userCs
  ss := userSs
  fsBase := 0
  fpu := fpu
  mem _ := 0
  kernelStack := 0
  rspSave := 0

/-- Task 1 runs, with zeros in the FPU. -/
def twoTasks : Kernel where
  cpu := userMachine fun _ => 0
  mode := .running 1
  contexts _ := contextOf (userMachine fun _ => 0)
  contextAddr _ := 0xfffffffff0001000
  kernelStackTop _ := 0xffffffffb0004000
  ist1 := 0xffffffffb0004000
  stackBase := 0xffffffffd0000000

/-- Task 2 has its turn, with `fpu` in the FPU. -/
def turnOfTwo (fpu : FxImage) : List Event :=
  [.schedule none (some 2), .work (userMachine fpu), .timer]

theorem twoTasks_away (fpu : FxImage) : ∃ k1 k2, step twoTasks .timer = some k1
    ∧ Away 1 k1 (turnOfTwo fpu) k2 ∧ k2.mode = .kernel ∧ k2.cpu.fpu = fpu
    ∧ contextOk (k2.contexts 1).cs (k2.contexts 1).rflags := by
  obtain ⟨k1, h1, hmode1, hctx1, -, -⟩ := timer_running (k := twoTasks) rfl (by decide)
  have hother : k1.contexts 2 = contextOf (userMachine fun _ => 0) := by
    obtain ⟨-, -, -, -, ⟨t, ht, hc⟩ | ⟨ht, -⟩⟩ := timer_inv h1
    · cases ht
      rw [hc]
      rfl
    · cases ht
  obtain ⟨a, ha, hamode, hactx, -⟩ := schedule_some (f := none)
    (by rw [hother]; exact .inr (by decide))
  have hs : step k1 (.schedule none (some 2)) = some a := by simp only [step, hmode1, ha]
  let b : Kernel := { a with cpu := { userMachine fpu with fsBase := a.cpu.fsBase } }
  have hb : step a (.work (userMachine fpu)) = some b := by simp only [step, hamode, b]
  have hbmode : b.mode = .running 2 := hamode
  obtain ⟨k2, h2, hmode2, -, hfpu2, -⟩ :=
    timer_running hbmode (show (0x200 : BitVec 64).getLsbD 9 = true by decide)
  have haway : Away 1 k1 (turnOfTwo fpu) k2 := by
    refine .cons hs (by rw [hamode]; decide) (.cons hb (by rw [hbmode]; decide) ?_)
    exact .cons h2 (by rw [hmode2]; decide) .nil
  have hctx : k2.contexts 1 = contextOf twoTasks.cpu :=
    (haway.kept (by rw [hmode1]; decide)).1.trans hctx1
  exact ⟨k1, k2, h1, haway, hmode2, hfpu2, by rw [hctx]; exact .inr (by decide)⟩

/-- If task 2 leaves zeros in the FPU as well, task 1 does not notice. -/
theorem preemption_transparent_twoTasks : ∃ k₁ k₂ k₃, step twoTasks .timer = some k₁
    ∧ Away 1 k₁ (turnOfTwo fun _ => 0) k₂ ∧ step k₂ (.schedule none (some 1)) = some k₃
    ∧ SameRegisters twoTasks.cpu k₃.cpu := by
  obtain ⟨k₁, k₂, h₁, haway, hmode₂, -, -⟩ := twoTasks_away fun _ => 0
  obtain ⟨k₁', h₁', hresume⟩ := preemption_transparent_iff twoTasks 1 rfl (by decide)
  obtain rfl : k₁ = k₁' := Option.some.inj (h₁.symm.trans h₁')
  obtain ⟨k₃, h₃, -, hiff⟩ := hresume _ k₂ haway hmode₂ none
  exact ⟨k₁, k₂, k₃, h₁, haway, h₃, hiff.mpr ⟨rfl, rfl⟩⟩

/-- **The FPU is not switched.** Task 2 leaves ones in it, and task 1 resumes with them. -/
theorem fpu_leaks_between_tasks : ∃ k₁ k₂ k₃, step twoTasks .timer = some k₁
    ∧ Away 1 k₁ (turnOfTwo fun _ => 1) k₂ ∧ step k₂ (.schedule none (some 1)) = some k₃
    ∧ ¬ SameRegisters twoTasks.cpu k₃.cpu := by
  obtain ⟨k₁, k₂, h₁, haway, hmode₂, hfpu₂, hok⟩ := twoTasks_away fun _ => 1
  obtain ⟨k₃, h₃, -, -, -, hfpu₃, -⟩ := schedule_some (f := none) hok
  refine ⟨k₁, k₂, k₃, h₁, haway, by simp only [step, hmode₂, h₃], fun hsame => ?_⟩
  have hbyte : (1 : UInt8) = 0 := congrFun ((hfpu₃.trans hfpu₂).symm.trans hsame.fpu) 0
  exact absurd hbyte (by decide)

end Flix.Cpu

import Flix.Cpu.Machine

/-!
# The frame under a handler

Both ways into the kernel, the interrupt stubs and the `syscall` entry, build
the same packed structure on the stack, `InterruptState`, and pass its address
to a C++ handler. First comes what the processor or the entry code pushes; then
nine bytes for the interrupt number and the error code, which put everything
below them off by one; then fifteen registers.

Between the frame and the handler lies the area for `fxsave`. It has to be
aligned, so its distance from the frame depends on the stack pointer.
-/

namespace Flix.Cpu

open Function Space

/-- `InterruptState`, without padding in memory. -/
structure InterruptState where
  r15 : BitVec 64
  r14 : BitVec 64
  r13 : BitVec 64
  r12 : BitVec 64
  rbx : BitVec 64
  rbp : BitVec 64
  r11 : BitVec 64
  r10 : BitVec 64
  r9 : BitVec 64
  r8 : BitVec 64
  rax : BitVec 64
  rcx : BitVec 64
  rdx : BitVec 64
  rsi : BitVec 64
  rdi : BitVec 64
  intNo : Nat
  errCode : BitVec 64
  rip : BitVec 64
  cs : BitVec 64
  rflags : BitVec 64
  rsp : BitVec 64
  ss : BitVec 64

/-- The object at `s`. -/
def readInterruptState (mem : Memory) (s : Addr) : InterruptState where
  r15 := loadQ mem s
  r14 := loadQ mem (s + 8)
  r13 := loadQ mem (s + 16)
  r12 := loadQ mem (s + 24)
  rbx := loadQ mem (s + 32)
  rbp := loadQ mem (s + 40)
  r11 := loadQ mem (s + 48)
  r10 := loadQ mem (s + 56)
  r9 := loadQ mem (s + 64)
  r8 := loadQ mem (s + 72)
  rax := loadQ mem (s + 80)
  rcx := loadQ mem (s + 88)
  rdx := loadQ mem (s + 96)
  rsi := loadQ mem (s + 104)
  rdi := loadQ mem (s + 112)
  intNo := load mem (s + 120) 1
  errCode := loadQ mem (s + 121)
  rip := loadQ mem (s + 129)
  cs := loadQ mem (s + 137)
  rflags := loadQ mem (s + 145)
  rsp := loadQ mem (s + 153)
  ss := loadQ mem (s + 161)

/-! ## The listings -/

/-- The registers in the order in which the entry code pushes them. -/
def savedRegs : List Reg :=
  [.rdi, .rsi, .rdx, .rcx, .rax, .r8, .r9, .r10, .r11, .rbp, .rbx, .r12, .r13, .r14, .r15]

/-- From the pushes to the call of the handler. The two entry paths have the same code
here. -/
def saveAndCall : List Instr :=
  savedRegs.map .push ++
  [.mov .rdi .rsp,
   -- align to 16
   .mov .rcx .rsp, .and .rcx 0xf, .subReg .rsp .rcx,
   .sub .rsp 0x200, .fxsave .rsp,
   .push .rcx, .sub .rsp 0x8]

/-- From the return of the handler to the registers it may have changed. -/
def restoreAfterCall : List Instr :=
  [.add .rsp 0x8, .pop .rcx,
   .fxrstor .rsp, .add .rsp 0x200, .addReg .rsp .rcx,
   .add .rsp 48] ++
  [Reg.r11, .r10, .r9, .r8, .rax, .rcx, .rdx, .rsi, .rdi].map .pop ++
  [.add .rsp 9]

/-- `isr_common_stub` up to the call of `intHandler`. -/
def isrCommonStub : List Instr := saveAndCall

/-- `ISR_NOERRCODE`. -/
def isr (intNo : Nat) : List Instr :=
  [.sub .rsp 9, .storeQuad .rsp 1 0, .storeByte .rsp 0 intNo] ++ isrCommonStub

/-- `syscall_entry` up to the call of `syscallHandler`. -/
def syscallEntry : List Instr :=
  [.saveRsp, .loadKernelStack,
   .sub .rsp 0x8, .pushRspSave, .push .r11, .sub .rsp 0x8, .push .rcx,
   .movCs .rcx, .storeReg .rsp 0x8 .rcx,
   .movSs .rcx, .storeReg .rsp 0x20 .rcx,
   .sub .rsp 0x9] ++ saveAndCall

/-! ## Saving -/

/-- How far `saveAndCall` moves the stack down to align it. -/
def slack (a : Addr) : BitVec 64 := BitVec.ofNat 64 (a.toNat % 16)

/-- Where the image of the FPU goes, below a frame at `s`. -/
def fxArea (s : Addr) : Addr := s - slack s - 512

theorem fxArea_aligned (s : Addr) : (fxArea s).toNat % 16 = 0 := by
  unfold fxArea slack
  rw [BitVec.toNat_sub, BitVec.toNat_sub, BitVec.toNat_ofNat]
  have : (512 : Addr).toNat = 512 := rfl
  omega

/-- What the code up to the call leaves behind, from the stack pointer `m.rsp` on. -/
structure Saved (m m' : Machine) : Prop where
  /-- The handler's argument is the frame. -/
  arg : m'.gpr .rdi = m.rsp - 120
  regs : loadWords m'.mem (m.rsp - 120) 15 = savedRegs.reverse.map m.gpr
  /-- What was on the stack before stays. -/
  above : Same m.mem m'.mem m.rsp 1024
  /-- The stack pointer at the call. -/
  rsp : m'.rsp = fxArea (m.rsp - 120) - 16
  /-- What the code after the call needs: by how much the stack was aligned, and the image. -/
  aligned : loadQ m'.mem (m'.rsp + 8) = slack (m.rsp - 120)
  image : loadFx m'.mem (m'.rsp + 16) = m.fpu
  fpu : m'.fpu = m.fpu
  fsBase : m'.fsBase = m.fsBase
  kept : ∀ r, r ≠ .rdi → r ≠ .rcx → r ≠ .rsp → m'.gpr r = m.gpr r

theorem and_fifteen (a : Addr) : a &&& 15#64 = BitVec.ofNat 64 (a.toNat % 16) := by
  refine BitVec.eq_of_toNat_eq ?_
  have h15 : (15#64).toNat = 2 ^ 4 - 1 := rfl
  rw [BitVec.toNat_and, h15, Nat.and_two_pow_sub_one_eq_mod, BitVec.toNat_ofNat]
  omega

theorem run_align (m : Machine) :
    run [.mov .rdi .rsp, .mov .rcx .rsp, .and .rcx 0xf, .subReg .rsp .rcx, .sub .rsp 0x200,
        .fxsave .rsp, .push .rcx, .sub .rsp 0x8] m
      = some { m with
          gpr := update (update (update m.gpr .rdi m.rsp) .rcx (slack m.rsp)) .rsp
            (fxArea m.rsp - 16)
          mem := storeQ (storeBlock m.mem (fxArea m.rsp) 512 m.fpu.bytes) (fxArea m.rsp - 8)
            (slack m.rsp) } := by
  have hbefore : run [.mov .rdi .rsp, .mov .rcx .rsp, .and .rcx 0xf, .subReg .rsp .rcx,
      .sub .rsp 0x200] m = some { m with
        gpr := update (update (update m.gpr .rdi m.rsp) .rcx (slack m.rsp)) .rsp
          (fxArea m.rsp) } := by
    simp [run, exec, Machine.setReg, Machine.rsp, and_fifteen, fxArea, slack]
  have hsave : ∀ m₁ : Machine, m₁.gpr .rsp = fxArea m.rsp → exec m₁ (.fxsave .rsp)
      = some { m₁ with mem := storeBlock m₁.mem (fxArea m.rsp) 512 m₁.fpu.bytes } := by
    intro m₁ h
    rw [exec, h, if_pos (fxArea_aligned _)]
  refine (run_append [_, _, _, _, _] [_, _, _] m).trans ?_
  rw [hbefore, Option.bind_some, run, hsave _ (by simp)]
  simp [run, exec, Machine.setReg, Machine.pushWord, Machine.rsp, sub_sub]

/-- The frame lies above the area by at least its size. -/
theorem frame_eq (s : Addr) : s = fxArea s - 8 + BitVec.ofNat 64 (520 + s.toNat % 16) := by
  rw [BitVec.ofNat_add, show BitVec.ofNat 64 520 = 520 from rfl]
  unfold fxArea slack
  ring

/-- Saving the image leaves the frame and what is above it alone. -/
theorem same_area (mem : Memory) (s : Addr) (f : Nat → UInt8) (v : BitVec 64) :
    Same mem (storeQ (storeBlock mem (fxArea s) 512 f) (fxArea s - 8) v) s 2048 := by
  have harea : Apart (fxArea s) 512 s 2048 := by
    have h := apart_of_offsets (fxArea s - 8) (o := 8) (n := 512) (p := 520 + s.toNat % 16)
      (k := 2048) (by omega)
    rwa [← frame_eq, show BitVec.ofNat 64 8 = 8 from rfl, BitVec.sub_add_cancel] at h
  have hword : Apart (fxArea s - 8) 8 s 2048 := by
    have h := apart_of_offsets (fxArea s - 8) (o := 0) (n := 8) (p := 520 + s.toNat % 16)
      (k := 2048) (by omega)
    rwa [← frame_eq, BitVec.add_zero] at h
  exact (same_storeBlock harea).trans (same_store hword)

theorem loadFx_area (mem : Memory) (a : Addr) (f : FxImage) (v : BitVec 64) :
    loadFx (storeQ (storeBlock mem a 512 f.bytes) (a - 8) v) a = f := by
  funext i
  have hword : Apart (a - 8) 8 a 512 := by
    have h := apart_of_offsets (a - 8) (o := 0) (n := 8) (p := 8) (k := 512) (by omega)
    rwa [BitVec.add_zero, show BitVec.ofNat 64 8 = 8 from rfl, BitVec.sub_add_cancel] at h
  have hi : (i : Nat) < 2 ^ 64 := by omega
  calc storeQ (storeBlock mem a 512 f.bytes) (a - 8) v (a + BitVec.ofNat 64 i)
      = storeBlock mem a 512 f.bytes (a + BitVec.ofNat 64 i) := same_store hword i i.isLt
    _ = f.bytes i := by
        rw [storeBlock, sub_toNat_of_offset a hi, if_pos i.isLt]
    _ = f i := by
        rw [FxImage.bytes, dif_pos i.isLt]

/-- The machine after the pushes. -/
def pushed (m : Machine) : Machine :=
  { m with
    gpr := update m.gpr .rsp (m.rsp - 120)
    mem := pushWords m.mem m.rsp (savedRegs.map m.gpr) }

theorem run_saveAndCall (m : Machine) :
    run saveAndCall m = some { m with
      gpr := update (update (update (pushed m).gpr .rdi (m.rsp - 120)) .rcx (slack (m.rsp - 120)))
        .rsp (fxArea (m.rsp - 120) - 16)
      mem := storeQ (storeBlock (pushed m).mem (fxArea (m.rsp - 120)) 512 m.fpu.bytes)
        (fxArea (m.rsp - 120) - 8) (slack (m.rsp - 120)) } := by
  have hpush : run (savedRegs.map .push) m = some (pushed m) := run_push savedRegs m (by decide)
  rw [saveAndCall, run_append, hpush, Option.bind_some, run_align]
  rfl

/-- Entering a handler. -/
theorem saveAndCall_spec (m : Machine) : ∃ m', run saveAndCall m = some m' ∧ Saved m m' := by
  refine ⟨_, run_saveAndCall m, ?_⟩
  have hlen : 8 * (savedRegs.map m.gpr).length = 120 := by simp [savedRegs]
  have hbelow : Apart (m.rsp - 120) 120 m.rsp 1024 := by
    have h := apart_of_offsets (m.rsp - 120) (o := 0) (n := 120) (p := 120) (k := 1024) (by omega)
    rwa [BitVec.add_zero, show BitVec.ofNat 64 120 = 120 from rfl, BitVec.sub_add_cancel] at h
  have harea := same_area (pushed m).mem (m.rsp - 120) m.fpu.bytes (slack (m.rsp - 120))
  constructor
  · simp
  · have hwords : loadWords (pushed m).mem (m.rsp - 120) 15 = (savedRegs.map m.gpr).reverse :=
      loadWords_pushWords (savedRegs.map m.gpr) m.rsp (by rw [hlen]; decide)
    rw [loadWords_of_same (fun i hi => harea i (by omega)), hwords, List.map_reverse]
  · have hpushed : Same m.mem (pushed m).mem m.rsp 1024 := by
      refine same_pushWords ?_
      exact hbelow
    have hhigh := harea.part (o := 120) (k := 1024) (by omega)
    rw [show BitVec.ofNat 64 120 = 120 from rfl, BitVec.sub_add_cancel] at hhigh
    exact hpushed.trans hhigh
  · simp only [Machine.rsp, update_self]
  · have hrsp : fxArea (m.rsp - 120) - 16 + 8 = fxArea (m.rsp - 120) - 8 := by ring
    simp only [Machine.rsp, update_self] at hrsp ⊢
    rw [hrsp, loadQ_storeQ]
  · have hrsp : fxArea (m.rsp - 120) - 16 + 16 = fxArea (m.rsp - 120) := by ring
    simp only [Machine.rsp, update_self] at hrsp ⊢
    rw [hrsp, loadFx_area]
  · rfl
  · rfl
  · intro r h1 h2 h3
    simp only [update_of_ne h3, update_of_ne h2, update_of_ne h1, pushed]

/-- The frame the handler sees, if the stack pointer was `m.rsp` before the pushes. -/
def frameOf (m : Machine) : InterruptState where
  r15 := m.gpr .r15
  r14 := m.gpr .r14
  r13 := m.gpr .r13
  r12 := m.gpr .r12
  rbx := m.gpr .rbx
  rbp := m.gpr .rbp
  r11 := m.gpr .r11
  r10 := m.gpr .r10
  r9 := m.gpr .r9
  r8 := m.gpr .r8
  rax := m.gpr .rax
  rcx := m.gpr .rcx
  rdx := m.gpr .rdx
  rsi := m.gpr .rsi
  rdi := m.gpr .rdi
  intNo := load m.mem m.rsp 1
  errCode := loadQ m.mem (m.rsp + 1)
  rip := loadQ m.mem (m.rsp + 9)
  cs := loadQ m.mem (m.rsp + 17)
  rflags := loadQ m.mem (m.rsp + 25)
  rsp := loadQ m.mem (m.rsp + 33)
  ss := loadQ m.mem (m.rsp + 41)

variable {m m' m₀ m₁ m₂ : Machine} {i o : Nat} {a : Addr}

theorem Saved.reg (h : Saved m m') {r : Reg}
    (ha : a = m.rsp - 120 + BitVec.ofNat 64 (8 * i)) (hr : savedRegs.reverse[i]? = some r) :
    loadQ m'.mem a = m.gpr r := by
  have hi : i < 15 := by
    have := (List.getElem?_eq_some_iff.mp hr).1
    simpa [savedRegs] using this
  have hword := getElem?_loadWords m'.mem (a := m.rsp - 120) hi
  rw [h.regs, List.getElem?_map, hr, ← ha] at hword
  exact (Option.some.inj hword).symm

/-- A word that the entry code has put above the registers. -/
theorem Saved.word (h : Saved m m')
    (ha : a = m.rsp - 120 + BitVec.ofNat 64 (120 + o)) (ho : o + 8 ≤ 1024) :
    loadQ m'.mem a = loadQ m.mem (m.rsp + BitVec.ofNat 64 o) := by
  rw [ha, BitVec.ofNat_add, ← BitVec.add_assoc, show BitVec.ofNat 64 120 = 120 from rfl,
    BitVec.sub_add_cancel, loadQ_of_same (h.above.part ho)]

/-- The handler's argument points to the registers of before the pushes, with what the
entry code has put on the stack above them. -/
theorem Saved.frame (h : Saved m m') : readInterruptState m'.mem (m'.gpr .rdi) = frameOf m := by
  have hno : load m'.mem (m.rsp - 120 + 120) 1 = load m.mem m.rsp 1 := by
    rw [BitVec.sub_add_cancel]
    exact load_of_same fun i hi => h.above i (by omega)
  unfold readInterruptState frameOf
  rw [h.arg, hno, InterruptState.mk.injEq]
  refine ⟨h.reg (i := 0) (BitVec.add_zero _).symm rfl, h.reg (i := 1) rfl rfl,
    h.reg (i := 2) rfl rfl, h.reg (i := 3) rfl rfl, h.reg (i := 4) rfl rfl,
    h.reg (i := 5) rfl rfl, h.reg (i := 6) rfl rfl, h.reg (i := 7) rfl rfl,
    h.reg (i := 8) rfl rfl, h.reg (i := 9) rfl rfl, h.reg (i := 10) rfl rfl,
    h.reg (i := 11) rfl rfl, h.reg (i := 12) rfl rfl, h.reg (i := 13) rfl rfl,
    h.reg (i := 14) rfl rfl, rfl, ?_⟩
  exact ⟨h.word (o := 1) rfl (by omega), h.word (o := 9) rfl (by omega),
    h.word (o := 17) rfl (by omega), h.word (o := 25) rfl (by omega),
    h.word (o := 33) rfl (by omega), h.word (o := 41) rfl (by omega)⟩

/-! ## The interrupt stubs -/

/-- What the handler of interrupt `intNo` sees of the interrupted machine. -/
def interruptFrame (intNo : Nat) (m : Machine) : InterruptState where
  r15 := m.gpr .r15
  r14 := m.gpr .r14
  r13 := m.gpr .r13
  r12 := m.gpr .r12
  rbx := m.gpr .rbx
  rbp := m.gpr .rbp
  r11 := m.gpr .r11
  r10 := m.gpr .r10
  r9 := m.gpr .r9
  r8 := m.gpr .r8
  rax := m.gpr .rax
  rcx := m.gpr .rcx
  rdx := m.gpr .rdx
  rsi := m.gpr .rsi
  rdi := m.gpr .rdi
  intNo := intNo
  errCode := 0
  rip := m.rip
  cs := m.cs.setWidth 64
  rflags := m.rflags
  rsp := m.rsp
  ss := m.ss.setWidth 64

/-- The machine before the pushes of `isr_common_stub`. -/
def afterIsr (intNo : Nat) (m : Machine) : Machine :=
  { m with
    gpr := update m.gpr .rsp (m.rsp - BitVec.ofNat 64 9)
    mem := store (store m.mem (m.rsp - BitVec.ofNat 64 9 + BitVec.ofNat 64 1) 8 0)
      (m.rsp - BitVec.ofNat 64 9 + BitVec.ofNat 64 0) 1 intNo }

theorem afterIsr_rsp (intNo : Nat) (m : Machine) :
    (afterIsr intNo m).rsp = m.rsp - BitVec.ofNat 64 9 := by
  simp [afterIsr, Machine.rsp]

theorem run_isr (intNo : Nat) (m : Machine) :
    run (isr intNo) m = run saveAndCall (afterIsr intNo m) := by
  have hstub : run [.sub .rsp 9, .storeQuad .rsp 1 0, .storeByte .rsp 0 intNo] m
      = some (afterIsr intNo m) := by
    simp only [run, exec, Machine.setReg, Machine.rsp, afterIsr, Option.bind_some, update_self]
  rw [isr, run_append, hstub, Option.bind_some, isrCommonStub]

theorem interrupt_rsp (ist : Addr) (m : Machine) :
    (interrupt ist m).rsp = ist - BitVec.ofNat 64 (ist.toNat % 16) - 40 := by
  simp [interrupt, Machine.rsp]

/-- The words the processor pushes, from the stack pointer upwards. -/
theorem interrupt_words (ist : Addr) (m : Machine) :
    loadWords (interrupt ist m).mem (interrupt ist m).rsp 5
      = [m.rip, m.cs.setWidth 64, m.rflags, m.rsp, m.ss.setWidth 64] := by
  have h := loadWords_pushWords (m := m.mem)
    [m.ss.setWidth 64, m.rsp, m.rflags, m.cs.setWidth 64, m.rip]
    (ist - BitVec.ofNat 64 (ist.toNat % 16)) (by simp)
  exact h

theorem interrupt_word {ist : Addr} {w : BitVec 64} (hi : i < 5)
    (hw : [m.rip, m.cs.setWidth 64, m.rflags, m.rsp, m.ss.setWidth 64][i]? = some w) :
    loadQ (interrupt ist m).mem ((interrupt ist m).rsp + BitVec.ofNat 64 (8 * i)) = w := by
  have hword := getElem?_loadWords (interrupt ist m).mem (a := (interrupt ist m).rsp) hi
  rw [interrupt_words, hw] at hword
  exact (Option.some.inj hword).symm

theorem afterIsr_word (intNo : Nat) (m : Machine) (ho : o + 8 ≤ 1024)
    (ha : a = (afterIsr intNo m).rsp + BitVec.ofNat 64 (9 + o)) :
    loadQ (afterIsr intNo m).mem a = loadQ m.mem (m.rsp + BitVec.ofNat 64 o) := by
  have hbase : m.rsp - BitVec.ofNat 64 9 + BitVec.ofNat 64 (9 + o)
      = m.rsp + BitVec.ofNat 64 o := by
    rw [BitVec.ofNat_add, ← BitVec.add_assoc, BitVec.sub_add_cancel]
  rw [ha, ← hbase]
  refine loadQ_of_same ((same_store (apart_of_offsets _ ?_)).trans (same_store (apart_of_offsets _ ?_)))
  · omega
  · omega

theorem frameOf_afterIsr {intNo : Nat} (hno : intNo < 256) (ist : Addr) (m : Machine) :
    frameOf (afterIsr intNo (interrupt ist m)) = interruptFrame intNo m := by
  set m₀ := interrupt ist m with hm0
  have hgpr : ∀ r, r ≠ .rsp → (afterIsr intNo m₀).gpr r = m.gpr r := by
    intro r hr
    simp only [hm0, afterIsr, interrupt, update_of_ne hr]
  have hrsp := afterIsr_rsp intNo m₀
  have hnum : load (afterIsr intNo m₀).mem (afterIsr intNo m₀).rsp 1 = intNo := by
    rw [hrsp, afterIsr, BitVec.add_zero, load_store_self _ _ _ (by decide), pow_one,
      Nat.mod_eq_of_lt hno]
  have herr : loadQ (afterIsr intNo m₀).mem ((afterIsr intNo m₀).rsp + 1) = 0 := by
    have hap : Apart (m₀.rsp - BitVec.ofNat 64 9 + BitVec.ofNat 64 0) 1
        (m₀.rsp - BitVec.ofNat 64 9 + BitVec.ofNat 64 1) 8 := apart_of_offsets _ (by omega)
    exact (loadQ_of_same (same_store hap)).trans (loadQ_storeQ _ _ 0)
  have hword : ∀ {i : Nat} {w : BitVec 64} {a : Addr}, i < 5 →
      [m.rip, m.cs.setWidth 64, m.rflags, m.rsp, m.ss.setWidth 64][i]? = some w →
      a = (afterIsr intNo m₀).rsp + BitVec.ofNat 64 (9 + 8 * i) →
      loadQ (afterIsr intNo m₀).mem a = w := by
    intro i w a hi hw ha
    rw [afterIsr_word intNo m₀ (by omega) ha]
    exact interrupt_word hi hw
  unfold frameOf interruptFrame
  rw [hnum, herr, InterruptState.mk.injEq]
  refine ⟨hgpr .r15 nofun, hgpr .r14 nofun, hgpr .r13 nofun, hgpr .r12 nofun, hgpr .rbx nofun,
    hgpr .rbp nofun, hgpr .r11 nofun, hgpr .r10 nofun, hgpr .r9 nofun, hgpr .r8 nofun,
    hgpr .rax nofun, hgpr .rcx nofun, hgpr .rdx nofun, hgpr .rsi nofun, hgpr .rdi nofun, rfl, rfl,
    ?_⟩
  exact ⟨hword (i := 0) (by omega) rfl rfl, hword (i := 1) (by omega) rfl rfl,
    hword (i := 2) (by omega) rfl rfl, hword (i := 3) (by omega) rfl rfl,
    hword (i := 4) (by omega) rfl rfl⟩

/-- The interrupt stubs pass the interrupted machine to `intHandler`. -/
theorem isr_spec (intNo : Nat) (hno : intNo < 256) (ist : Addr) (m : Machine) :
    ∃ m', run (isr intNo) (interrupt ist m) = some m'
      ∧ readInterruptState m'.mem (m'.gpr .rdi) = interruptFrame intNo m
      ∧ m'.fpu = m.fpu ∧ m'.fsBase = m.fsBase := by
  obtain ⟨m', hrun, hsaved⟩ := saveAndCall_spec (afterIsr intNo (interrupt ist m))
  refine ⟨m', (run_isr intNo _).trans hrun, ?_, hsaved.fpu, hsaved.fsBase⟩
  rw [hsaved.frame, frameOf_afterIsr hno]

/-! ## Returning -/

/-- What the call of a C++ handler may do to the machine: it keeps the stack pointer and
the callee-saved registers, and of the frame at `s` it writes at most `rax`. -/
structure Called (s : Addr) (m m' : Machine) : Prop where
  rsp : m'.rsp = m.rsp
  calleeSaved : ∀ r ∈ [Reg.rbx, .rbp, .r12, .r13, .r14, .r15], m'.gpr r = m.gpr r
  below : Same m.mem m'.mem m.rsp (s + 80 - m.rsp).toNat
  above : Same m.mem m'.mem (s + 88) 81

/-- The frame, seen from the stack pointer at the call. -/
theorem frame_of_call (s : Addr) : fxArea s - 16 + BitVec.ofNat 64 (528 + s.toNat % 16) = s := by
  rw [BitVec.ofNat_add, show BitVec.ofNat 64 528 = 528 from rfl]
  unfold fxArea slack
  ring

/-- The registers that `restoreAfterCall` pops. -/
def callerSaved : List Reg := [.r11, .r10, .r9, .r8, .rax, .rcx, .rdx, .rsi, .rdi]

section

variable (hs : Saved m₀ m₁) (hc : Called (m₀.rsp - 120) m₁ m₂)
include hs hc

/-- The handler keeps the alignment, the image and the frame up to `rax`. -/
theorem Called.area :
    Same m₁.mem m₂.mem m₁.rsp (608 + (m₀.rsp - 120).toNat % 16) := by
  have hdist : 608 + (m₀.rsp - 120).toNat % 16 ≤ (m₀.rsp - 120 + 80 - m₁.rsp).toNat := by
    have e : m₀.rsp - 120 + 80 - m₁.rsp
        = BitVec.ofNat 64 (608 + (m₀.rsp - 120).toNat % 16) := by
      have h := frame_of_call (m₀.rsp - 120)
      rw [← hs.rsp] at h
      nth_rewrite 1 [← h]
      rw [BitVec.ofNat_add, BitVec.ofNat_add, show BitVec.ofNat 64 528 = 528 from rfl,
        show BitVec.ofNat 64 608 = 608 from rfl]
      ring
    rw [e, BitVec.toNat_ofNat]
    omega
  exact fun i hi => hc.below i (by omega)

theorem run_unalign :
    run [.add .rsp 0x8, .pop .rcx, .fxrstor .rsp, .add .rsp 0x200, .addReg .rsp .rcx,
        .add .rsp 48] m₂
      = some { m₂ with
          gpr := update (update m₂.gpr .rcx (slack (m₀.rsp - 120))) .rsp (m₀.rsp - 120 + 48)
          fpu := m₀.fpu } := by
  set s := m₀.rsp - 120
  have hsame := hc.area hs
  have hrsp : m₂.gpr .rsp + BitVec.ofNat 64 8 = fxArea s - 8 := by
    show m₂.rsp + 8 = _
    rw [hc.rsp, hs.rsp]
    ring
  have hslack : loadQ m₂.mem (fxArea s - 8) = slack s := by
    have h := loadQ_of_same (hsame.part (o := 8) (by omega))
    rw [show m₁.rsp + BitVec.ofNat 64 8 = fxArea s - 8 by rw [← hrsp, ← hc.rsp]; rfl] at h
    have harg : fxArea s - 8 = m₁.rsp + 8 := by
      rw [hs.rsp]
      ring
    rw [h, harg, hs.aligned]
  have himage : loadFx m₂.mem (fxArea s) = m₀.fpu := by
    rw [← hs.image]
    have harea : m₁.rsp + 16 = fxArea s := by rw [hs.rsp]; ring
    rw [harea]
    funext i
    have h := hsame.part (o := 16) (k := 512) (by omega)
    rw [show m₁.rsp + BitVec.ofNat 64 16 = fxArea s from harea] at h
    exact h i i.isLt
  have hend : fxArea s - 8 + 8 + BitVec.ofNat 64 512 + slack s + BitVec.ofNat 64 48 = s + 48 := by
    show fxArea s - 8 + 8 + 512 + slack s + 48 = _
    unfold fxArea
    ring
  have hbefore : run [.add .rsp 0x8, .pop .rcx] m₂ = some { m₂ with
      gpr := update (update m₂.gpr .rcx (slack s)) .rsp (fxArea s - 8 + 8) } := by
    simp only [run, exec, Machine.setReg, Machine.rsp, Option.bind_some, update_self, update_idem,
      hrsp, hslack]
    rw [update_comm (by decide : Reg.rsp ≠ .rcx)]
  have hrestore : ∀ g : Reg → BitVec 64, g .rsp = fxArea s - 8 + 8 →
      exec { m₂ with gpr := g } (.fxrstor .rsp) = some { m₂ with gpr := g, fpu := m₀.fpu } := by
    intro g h
    rw [BitVec.sub_add_cancel] at h
    simp only [exec, h, if_pos (fxArea_aligned s), himage]
  refine (run_append [_, _] [_, _, _, _] m₂).trans ?_
  rw [hbefore, Option.bind_some, run, hrestore _ (update_self ..)]
  simp only [run, exec, Machine.setReg, Option.bind_some, update_self, update_idem, ne_eq,
    reduceCtorEq, not_false_eq_true, update_of_ne, hend]

/-- A register in the frame after the call, `rax` excepted. -/
theorem Called.reg {r : Reg} (hr : savedRegs.reverse[i]? = some r) (hi : i ≠ 10) :
    loadQ m₂.mem (m₀.rsp - 120 + BitVec.ofNat 64 (8 * i)) = m₀.gpr r := by
  have hlt : i < 15 := by
    have := (List.getElem?_eq_some_iff.mp hr).1
    simpa [savedRegs] using this
  rw [← hs.reg rfl hr]
  refine loadQ_of_same ?_
  rcases Nat.lt_or_gt_of_ne hi with hi | hi
  · -- below `rax`, measured from the stack pointer
    have h := (hc.area hs).part (o := 528 + (m₀.rsp - 120).toNat % 16 + 8 * i) (k := 8) (by omega)
    rw [BitVec.ofNat_add (528 + _), ← BitVec.add_assoc, hs.rsp, frame_of_call] at h
    exact h
  · -- above `rax`
    have h := hc.above.part (o := 8 * i - 88) (k := 8) (by omega)
    have e : m₀.rsp - 120 + 88 + BitVec.ofNat 64 (8 * i - 88)
        = m₀.rsp - 120 + BitVec.ofNat 64 (8 * i) := by
      rw [BitVec.add_assoc, show (88 : Addr) = BitVec.ofNat 64 88 from rfl, ← BitVec.ofNat_add,
        show 88 + (8 * i - 88) = 8 * i by omega]
    rw [e] at h
    exact h

/-- What is popped: the registers of before, but for what the handler has put into `rax`. -/
theorem Called.words :
    loadWords m₂.mem (m₀.rsp - 120 + 48) 9
      = callerSaved.map (update m₀.gpr .rax (loadQ m₂.mem (m₀.rsp - 120 + 80))) := by
  have hlater : callerSaved = savedRegs.reverse.drop 6 := rfl
  refine List.ext_getElem? fun j => ?_
  by_cases hj : j < 9
  · obtain ⟨r, hr⟩ : ∃ r, callerSaved[j]? = some r := ⟨_, List.getElem?_eq_getElem hj⟩
    have hr' : savedRegs.reverse[6 + j]? = some r := by rw [← hr, hlater, List.getElem?_drop]
    have ha : m₀.rsp - 120 + 48 + BitVec.ofNat 64 (8 * j)
        = m₀.rsp - 120 + BitVec.ofNat 64 (8 * (6 + j)) := by
      rw [BitVec.add_assoc, show (48 : Addr) = BitVec.ofNat 64 48 from rfl, ← BitVec.ofNat_add,
        show 48 + 8 * j = 8 * (6 + j) by omega]
    rw [getElem?_loadWords m₂.mem hj, List.getElem?_map, hr, ha]
    by_cases hrax : j = 4
    · subst hrax
      cases hr
      rw [Option.map_some, update_self, show BitVec.ofNat 64 (8 * (6 + 4)) = 80 from rfl]
    · have hplace : ∀ i < 9, callerSaved[i]? = some .rax → i = 4 := by decide
      have hne : r ≠ .rax := fun e => hrax (hplace j hj (e ▸ hr))
      rw [hc.reg hs hr' (by omega), Option.map_some, update_of_ne hne]
  · rw [List.getElem?_eq_none (by rw [length_loadWords]; omega), List.getElem?_eq_none]
    simp only [callerSaved, List.length_map, List.length_cons, List.length_nil]
    omega

/-- A word that the entry code has put above the registers, after the call. -/
theorem Called.word (ho : o + 8 ≤ 49) :
    loadQ m₂.mem (m₀.rsp + BitVec.ofNat 64 o) = loadQ m₀.mem (m₀.rsp + BitVec.ofNat 64 o) := by
  have h := hc.above.part (o := 32 + o) (k := 8) (by omega)
  have e : m₀.rsp - 120 + 88 + BitVec.ofNat 64 (32 + o) = m₀.rsp + BitVec.ofNat 64 o := by
    rw [BitVec.ofNat_add, show BitVec.ofNat 64 32 = 32 from rfl]
    ring
  rw [e] at h
  rw [loadQ_of_same h, loadQ_of_same (hs.above.part (by omega))]

/-- Leaving a handler. The registers are those of before, but for what the handler has put
into `rax`, and the stack pointer stands above the interrupt number and the error code. -/
theorem restoreAfterCall_spec :
    ∃ g : Reg → BitVec 64, run restoreAfterCall m₂ = some { m₂ with gpr := g, fpu := m₀.fpu }
      ∧ g .rsp = m₀.rsp + 9 ∧ g .rax = loadQ m₂.mem (m₀.rsp - 120 + 80)
      ∧ ∀ r, r ≠ .rax → r ≠ .rsp → g r = m₀.gpr r := by
  have hwords : loadWords m₂.mem (m₀.rsp - 120 + 48) callerSaved.length = _ := hc.words hs
  obtain ⟨v, hv⟩ : ∃ v, v = loadQ m₂.mem (m₀.rsp - 120 + 80) := ⟨_, rfl⟩
  rw [← hv] at hwords ⊢
  obtain ⟨g1, hg1⟩ : ∃ g1, g1 = update (update m₂.gpr .rcx (slack (m₀.rsp - 120))) .rsp
    (m₀.rsp - 120 + 48) := ⟨_, rfl⟩
  obtain ⟨g2, hg2⟩ : ∃ g2, g2 = setRegs (update g1 .rsp (m₀.rsp - 120 + 48 + BitVec.ofNat 64 72))
    callerSaved (callerSaved.map (update m₀.gpr .rax v)) := ⟨_, rfl⟩
  have hunalign := run_unalign hs hc
  rw [← hg1] at hunalign
  have hpop : run (callerSaved.map .pop) { m₂ with gpr := g1, fpu := m₀.fpu }
      = some { m₂ with gpr := g2, fpu := m₀.fpu } := by
    have hrsp : Machine.rsp { m₂ with gpr := g1, fpu := m₀.fpu } = m₀.rsp - 120 + 48 := by
      show g1 .rsp = _
      rw [hg1, update_self]
    rw [run_pop callerSaved _ (by decide), hrsp]
    simp only [hwords]
    rw [hg2]
    rfl
  have hrsp2 : g2 .rsp = m₀.rsp - 120 + 48 + BitVec.ofNat 64 72 := by
    rw [hg2, setRegs_of_notMem (by decide), update_self]
  have hlast : run [.add .rsp 9] { m₂ with gpr := g2, fpu := m₀.fpu }
      = some { m₂ with gpr := update g2 .rsp (m₀.rsp + 9), fpu := m₀.fpu } := by
    have e : m₀.rsp - 120 + 48 + BitVec.ofNat 64 72 + BitVec.ofNat 64 9 = m₀.rsp + 9 := by
      show m₀.rsp - 120 + 48 + 72 + 9 = _
      ring
    simp only [run, exec, Machine.setReg, Option.bind_some, hrsp2, e]
  refine ⟨update g2 .rsp (m₀.rsp + 9), ?_, by rw [update_self], ?_, fun r h1 h2 => ?_⟩
  · rw [restoreAfterCall, run_append, run_append, hunalign, Option.bind_some]
    exact (congrArg (Option.bind · (run [.add .rsp 9])) hpop).trans hlast
  · rw [update_of_ne (by decide), hg2, setRegs_map (by decide), update_self]
  · rw [update_of_ne h2, hg2]
    by_cases hr : r ∈ callerSaved
    · rw [setRegs_map hr, update_of_ne h1]
    · -- a callee-saved register, which the handler has kept
      have hcallee : r ∈ [Reg.rbx, .rbp, .r12, .r13, .r14, .r15] := by
        cases r <;> simp_all [callerSaved]
      have hne : r ≠ .rdi ∧ r ≠ .rcx := by
        constructor <;> rintro rfl <;> exact hr (by decide)
      rw [setRegs_of_notMem hr, update_of_ne h2, hg1, update_of_ne h2, update_of_ne hne.2,
        hc.calleeSaved r hcallee, hs.kept r hne.1 hne.2 h2]

end

end Flix.Cpu

import Flix.Lib.Space
import Mathlib.Logic.Function.Basic

/-!
# The processor

As much of an x86-64 processor as the assembly of the kernel uses: the
registers, a byte-addressed memory, the instructions of `interrupt.asm`,
`task.S` and `syscall.S`, and what the hardware itself does on an interrupt and
on the `syscall` instruction.

The listings are straight-line code, so a listing is a list of instructions
and `rip` is only touched where control leaves it. The status flags that the
arithmetic instructions set are read by none of them and are not modelled. The
two static variables of `syscall.S` are kept apart from the rest of memory.
-/

namespace Flix.Cpu

open Function Space

inductive Reg where
  | rax | rbx | rcx | rdx | rsi | rdi | rbp | rsp
  | r8 | r9 | r10 | r11 | r12 | r13 | r14 | r15
  deriving DecidableEq, Repr

/-- The 512 bytes `fxsave` stores. -/
abbrev FxImage := Fin 512 → UInt8

structure Machine where
  gpr : Reg → BitVec 64
  rip : BitVec 64
  rflags : BitVec 64
  cs : BitVec 16
  ss : BitVec 16
  /-- The base of segment `fs`, which `arch_prctl` sets. -/
  fsBase : BitVec 64
  /-- The FPU and SSE registers. -/
  fpu : FxImage
  mem : Memory
  /-- The variable `kernelStack` of `Cpu.cpp`. -/
  kernelStack : Addr
  /-- The variable `Lrsp_save` of `syscall.S`. -/
  rspSave : Addr

/-- Instructions, with the destination first. -/
inductive Instr where
  | push (r : Reg)
  | pop (r : Reg)
  | mov (dst src : Reg)
  | add (dst : Reg) (n : Nat)
  | sub (dst : Reg) (n : Nat)
  | and (dst : Reg) (n : Nat)
  | addReg (dst src : Reg)
  | subReg (dst src : Reg)
  /-- Stores a register, a quadword or a byte at `base + disp`. -/
  | storeReg (base : Reg) (disp : Nat) (src : Reg)
  | storeQuad (base : Reg) (disp n : Nat)
  | storeByte (base : Reg) (disp n : Nat)
  | movCs (dst : Reg)
  | movSs (dst : Reg)
  /-- `mov %rsp, Lrsp_save`, `mov kernelStack, %rsp` and `pushq (Lrsp_save)`. -/
  | saveRsp
  | loadKernelStack
  | pushRspSave
  | fxsave (base : Reg)
  | fxrstor (base : Reg)
  | iretq
  | sysretq

namespace Machine

def rsp (m : Machine) : Addr := m.gpr .rsp

def setReg (m : Machine) (r : Reg) (v : BitVec 64) : Machine :=
  { m with gpr := update m.gpr r v }

def pushWord (m : Machine) (v : BitVec 64) : Machine :=
  { m with gpr := update m.gpr .rsp (m.rsp - 8), mem := storeQ m.mem (m.rsp - 8) v }

end Machine

/-- The image as bytes from offset 0. -/
def FxImage.bytes (f : FxImage) (i : Nat) : UInt8 := if h : i < 512 then f ⟨i, h⟩ else 0

def loadFx (mem : Memory) (a : Addr) : FxImage := fun i => mem (a + BitVec.ofNat 64 i)

/-- The selectors `sysret` loads: `STAR` holds `USER_CS - 16`, and the requested privilege
level is 3. -/
def userCs : BitVec 16 := 0x23
def userSs : BitVec 16 := 0x1b

/-- One instruction, `none` where it faults. -/
def exec (m : Machine) : Instr → Option Machine
  | .push r => some (m.pushWord (m.gpr r))
  | .pop r => some ((m.setReg .rsp (m.rsp + 8)).setReg r (loadQ m.mem m.rsp))
  | .mov dst src => some (m.setReg dst (m.gpr src))
  | .add dst n => some (m.setReg dst (m.gpr dst + BitVec.ofNat 64 n))
  | .sub dst n => some (m.setReg dst (m.gpr dst - BitVec.ofNat 64 n))
  | .and dst n => some (m.setReg dst (m.gpr dst &&& BitVec.ofNat 64 n))
  | .addReg dst src => some (m.setReg dst (m.gpr dst + m.gpr src))
  | .subReg dst src => some (m.setReg dst (m.gpr dst - m.gpr src))
  | .storeReg base disp src =>
    some { m with mem := storeQ m.mem (m.gpr base + BitVec.ofNat 64 disp) (m.gpr src) }
  | .storeQuad base disp n =>
    some { m with mem := store m.mem (m.gpr base + BitVec.ofNat 64 disp) 8 n }
  | .storeByte base disp n =>
    some { m with mem := store m.mem (m.gpr base + BitVec.ofNat 64 disp) 1 n }
  | .movCs dst => some (m.setReg dst (m.cs.setWidth 64))
  | .movSs dst => some (m.setReg dst (m.ss.setWidth 64))
  | .saveRsp => some { m with rspSave := m.rsp }
  | .loadKernelStack => some (m.setReg .rsp m.kernelStack)
  | .pushRspSave => some (m.pushWord m.rspSave)
  | .fxsave base =>
    -- a general-protection exception unless the area is aligned
    if (m.gpr base).toNat % 16 = 0 then
      some { m with mem := storeBlock m.mem (m.gpr base) 512 m.fpu.bytes }
    else none
  | .fxrstor base =>
    if (m.gpr base).toNat % 16 = 0 then some { m with fpu := loadFx m.mem (m.gpr base) }
    else none
  | .iretq =>
    some { m with
      rip := loadQ m.mem m.rsp
      cs := (loadQ m.mem (m.rsp + 8)).setWidth 16
      rflags := loadQ m.mem (m.rsp + 16)
      gpr := update m.gpr .rsp (loadQ m.mem (m.rsp + 24))
      ss := (loadQ m.mem (m.rsp + 32)).setWidth 16 }
  | .sysretq =>
    some { m with
      rip := m.gpr .rcx
      rflags := (m.gpr .r11 &&& 0x3c7fd7) ||| 2
      cs := userCs
      ss := userSs }

/-- A listing. -/
def run : List Instr → Machine → Option Machine
  | [], m => some m
  | i :: is, m => (exec m i).bind (run is)

/-- What the processor does on an interrupt through a gate that uses the interrupt stack
`ist`: it aligns the stack, pushes `ss`, `rsp`, `rflags`, `cs` and `rip`, and goes on in the
kernel with interrupts disabled. -/
def interrupt (ist : Addr) (m : Machine) : Machine :=
  let top := ist - BitVec.ofNat 64 (ist.toNat % 16)
  { m with
    mem := pushWords m.mem top
      [m.ss.setWidth 64, m.rsp, m.rflags, m.cs.setWidth 64, m.rip]
    gpr := update m.gpr .rsp (top - 40)
    rflags := m.rflags &&& ~~~0x200
    cs := 0x08
    ss := if m.cs.toNat % 4 = 0 then m.ss else 0 }

/-- What the processor does on `syscall`, as `initSysCallGate` has set it up. -/
def syscall (m : Machine) : Machine :=
  { m with
    gpr := update (update m.gpr .rcx m.rip) .r11 m.rflags
    cs := 0x08
    ss := 0x10 }

/-! ## Straight-line code -/

theorem run_append (is js : List Instr) (m : Machine) :
    run (is ++ js) m = (run is m).bind (run js) := by
  induction is generalizing m with
  | nil => rfl
  | cons i is ih =>
    rw [List.cons_append, run, run, Option.bind_assoc]
    congr 1
    funext m'
    exact ih m'

/-- Pushing registers. -/
theorem run_push (rs : List Reg) (m : Machine) (h : Reg.rsp ∉ rs) :
    run (rs.map .push) m = some { m with
      gpr := update m.gpr .rsp (m.rsp - BitVec.ofNat 64 (8 * rs.length))
      mem := pushWords m.mem m.rsp (rs.map m.gpr) } := by
  induction rs generalizing m with
  | nil =>
    rw [List.length_nil, BitVec.sub_zero, Machine.rsp,
      update_eq_self]
    rfl
  | cons r rs ih =>
    obtain ⟨hr, hrs⟩ : Reg.rsp ≠ r ∧ Reg.rsp ∉ rs := by simpa using h
    -- the registers still to be pushed are the ones of before
    have hmap : rs.map (m.pushWord (m.gpr r)).gpr = rs.map m.gpr :=
      List.map_congr_left fun q hq => update_of_ne (fun e : q = .rsp => hrs (e ▸ hq)) ..
    rw [List.map_cons, run, exec, Option.bind_some, ih _ hrs, hmap, List.length_cons, sub_push]
    simp [Machine.pushWord, Machine.rsp, pushWords]

/-- Loads the registers with the words, in order. -/
def setRegs (g : Reg → BitVec 64) : List Reg → List (BitVec 64) → Reg → BitVec 64
  | r :: rs, w :: ws => setRegs (update g r w) rs ws
  | _, _ => g

/-- Popping registers. -/
theorem run_pop (rs : List Reg) (m : Machine) (h : Reg.rsp ∉ rs) :
    run (rs.map .pop) m = some { m with
      gpr := setRegs (update m.gpr .rsp (m.rsp + BitVec.ofNat 64 (8 * rs.length))) rs
        (loadWords m.mem m.rsp rs.length) } := by
  induction rs generalizing m with
  | nil =>
    rw [List.map_nil, run, List.length_nil, BitVec.add_zero, Machine.rsp, setRegs,
      update_eq_self]
    simp
  | cons r rs ih =>
    obtain ⟨hr, hrs⟩ : Reg.rsp ≠ r ∧ Reg.rsp ∉ rs := by simpa using h
    have hrsp : ((m.setReg .rsp (m.rsp + 8)).setReg r (loadQ m.mem m.rsp)).rsp = m.rsp + 8 := by
      simp [Machine.setReg, Machine.rsp, update_of_ne hr]
    have hend : m.rsp + 8 + BitVec.ofNat 64 (8 * rs.length)
        = m.rsp + BitVec.ofNat 64 (8 * (rs.length + 1)) := by
      rw [Nat.mul_succ, BitVec.ofNat_add, show BitVec.ofNat 64 8 = 8 from rfl]
      ring
    rw [List.map_cons, run, exec, Option.bind_some, ih _ hrs, hrsp, hend, List.length_cons,
      loadWords, setRegs]
    simp only [Machine.setReg]
    rw [update_comm hr, update_idem, update_comm hr.symm]

theorem setRegs_of_notMem {g : Reg → BitVec 64} {r : Reg} : ∀ {rs : List Reg}
    {ws : List (BitVec 64)}, r ∉ rs → setRegs g rs ws r = g r
  | [], _, _ => rfl
  | _ :: _, [], _ => rfl
  | q :: rs, w :: ws, h => by
    obtain ⟨hq, hrs⟩ : r ≠ q ∧ r ∉ rs := by simpa using h
    rw [setRegs, setRegs_of_notMem hrs, update_of_ne hq]

/-- Registers loaded with what they hold elsewhere. -/
theorem setRegs_map {g g' : Reg → BitVec 64} {r : Reg} : ∀ {rs : List Reg}, r ∈ rs →
    setRegs g rs (rs.map g') r = g' r
  | q :: rs, h => by
    rw [List.map_cons, setRegs]
    by_cases hr : r ∈ rs
    · exact setRegs_map hr
    · have hq : r = q := by simpa [hr] using h
      rw [setRegs_of_notMem hr, hq, update_self]

end Flix.Cpu

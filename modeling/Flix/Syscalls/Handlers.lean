import Flix.Console.Screen
import Flix.Cpu.ContextSwitch
import Flix.Fs.FileHandle
import Flix.Fs.FileManager
import Flix.Fs.Links
import Flix.Paging.Mmap
import Flix.Tasks.Ticking

/-!
# System calls

`Syscall.cpp`: `sys::handle` finds the handler for the number in `rax`, and the handler
works on the task table, on the descriptors of the task, on the terminal and on the
page directory of the task. All of these are as in the modules about them.

A handler that has to wait puts the task to sleep in the middle of the call. `pending` is
what it is in the middle of, and `resume` the rest. The kernel stack has room for `depth`
calls of `fs::lookup` inside each other. A call that stops the kernel has no result.

User pointers are valid, so what they point to is a function of the pointer.
-/

namespace Flix.Sys

open Function Fs Runs
open Console (Screen)
open Cpu (InterruptState)
open Paging (World)
open Tasks (Tid ANY)
open Tasks.Ticking (TaskManager)

/-! ## The kernel -/

/-- `StdIn`, `StdOut` and `CpioFileHandle`. -/
inductive Handle where
  | stdIn
  | stdOut
  | file (inode : CpioInode) (handle : CpioFileHandle)

/-- What `newfstatat` fills in. The rest is zero. -/
structure Stat where
  st_nlink : Nat
  st_size : Nat
  st_mode : UInt16
  st_blksize : Nat
  st_blocks : Nat

/-- What is stored through a pointer of the user. -/
inductive Store where
  | bytes (buf : BitVec 64) (data : Str)
  | stat (buf : BitVec 64) (s : Stat)
  | status (ptr : BitVec 64) (value : Int)

/-- What the pointers of the user point to. -/
structure User where
  /-- Up to the NUL. -/
  cstring : BitVec 64 → Str
  bytes : BitVec 64 → Nat → Str

/-- The call that a task sleeps in. -/
inductive Pending where
  | read (buf : BitVec 64) (count : Nat)
  | wait (status : BitVec 64)

structure Kernel where
  tm : TaskManager
  files : Tid → FileManager Handle
  /-- `_stdin` of the terminal. -/
  stdin : Str
  screen : Screen
  world : World
  /-- The page directories. -/
  root : Tid → Nat
  curPtr : Nat
  /-- The kernel heap has room for a string of this length. -/
  room : Nat → Bool
  /-- What lies around the bytes of a file. -/
  around : Nat → UInt8
  pending : Tid → Option Pending

inductive Outcome where
  | returned (value : BitVec 64) (stores : List Store) (k : Kernel)
  | sleeps (k : Kernel)
  /-- `clone`, `execve` and `exit` do more than return a value. -/
  | elsewhere

/-- An `int` as a `SyscallReturnType`. -/
def ofInt (i : Int) : BitVec 64 := BitVec.ofInt 64 i

/-- A register as an `int`. -/
def toInt (r : BitVec 64) : Int := (r.setWidth 32).toInt

/-- A register as a `pid_t`, which has no sign. -/
def toPid (r : BitVec 64) : Tid := (r.setWidth 32).toNat

/-- The value of a call that fails. -/
def errorValue : BitVec 64 := ofInt (-1)

/-- The same, of a call that returns a `pid_t`. -/
def pidError : BitVec 64 := BitVec.ofNat 64 ANY

def fail (k : Kernel) : Outcome := .returned errorValue [] k

/-! ## The handlers -/

section

variable (children : List CpioInode) (depth : Nat)

/-- `Inode::open`. -/
def openInode (i : CpioInode) : Except IoError Handle := i.openHandle.map (.file i)

/-- `hndl::open`. -/
def openFile (k : Kernel) (path : Str) : Option Outcome := do
  let t ← k.tm.getActiveTask
  let inode ← lookupPath (cpioFs children) .None depth path
  let (fm, fd) := (k.files t).openFile (fun _ => inode) openInode path
  let k := { k with files := update k.files t fm }
  match fd with
  | .error _ => some (fail k)
  | .ok fd => some (.returned (ofInt fd) [] k)

def openat (k : Kernel) (_dirfd : Int) (path : Str) : Option Outcome :=
  openFile children depth k path

def close (k : Kernel) (fd : Int) : Option Outcome := do
  let t ← k.tm.getActiveTask
  let (fm, result) ← (k.files t).close fd
  some (.returned (ofInt result) [] { k with files := update k.files t fm })

/-- `Tty::readInto`, from where the mutex is taken. -/
def readInto (k : Kernel) (buf : BitVec 64) (count : Nat) : Option Outcome := do
  let t ← k.tm.getActiveTask
  if k.stdin = [] then do
    let tm ← k.tm.prepareMeForSleep
    some (.sleeps { k with tm := tm, pending := update k.pending t (some (.read buf count)) })
  else
    let toRead := min count k.stdin.length
    some (.returned (BitVec.ofNat 64 toRead) [.bytes buf (k.stdin.take toRead)]
      { k with stdin := k.stdin.drop toRead, pending := update k.pending t none })

def read (k : Kernel) (fd : Int) (buf : BitVec 64) (count : Nat) : Option Outcome := do
  let t ← k.tm.getActiveTask
  match ← (k.files t).getHandle fd with
  -- "fd not found"
  | none => some (fail k)
  | some .stdIn => if count = 0 then some (.returned 0 [] k) else readInto k buf count
  | some .stdOut => some (fail k)
  | some (.file inode h) =>
    let (bytes, h') := h.read k.around count
    let file : Handle := .file inode h'
    let fm : FileManager Handle := ⟨(k.files t).files.set fd.toNat (some file)⟩
    some (.returned (BitVec.ofNat 64 (h.copySize count)) [.bytes buf bytes]
      { k with files := update k.files t fm })

/-- `StdOut::write`. -/
def writeOut (k : Kernel) (data : Str) (count : Nat) : Option Outcome := do
  let screen ← k.screen.putString (.sized data .LightGrey .Black)
  some (.returned (BitVec.ofNat 64 count) [] { k with screen := screen })

def write (user : User) (k : Kernel) (fd : Int) (buf : BitVec 64) (count : Nat) :
    Option Outcome := do
  -- the string of the log
  assert (k.room count = true)
  let t ← k.tm.getActiveTask
  match ← (k.files t).getHandle fd with
  -- "fd not found"
  | none => some (fail k)
  | some .stdIn => some (fail k)
  | some .stdOut => writeOut k (user.bytes buf count) count
  | some (.file _ _) => some (fail k)

def mmap (k : Kernel) (length : Nat) : Option Outcome :=
  if length = 0 then some (.returned 0 [] k)
  else do
    let t ← k.tm.getActiveTask
    let (w, cur, start) ← Paging.Mmap.mmap k.world k.curPtr (k.root t) length
    some (.returned (BitVec.ofNat 64 start) [] { k with world := w, curPtr := cur })

/-- `hh.firstChild`. A new child is put in front of the others, and a new task in front of the
table. -/
def firstChild (tm : TaskManager) (t : Tid) : Option Tid :=
  tm.tasks.find? fun c => tm.parent c = some t

/-- The task that `TaskManager::wait` finds for a `tid`. -/
def waitTarget (tm : TaskManager) (t tid : Tid) : Option Tid :=
  if tid = ANY then firstChild tm t
  else if tid ∈ tm.tasks then some tid
  else none

/-- The end of `TaskManager::wait`. -/
def removeChild (k : Kernel) (t : Tid) (status : BitVec 64) : Option Outcome :=
  match k.tm.waiting t with
  | .ended child => do
      let tm ← k.tm.removeChild
      some (.returned (BitVec.ofNat 64 child) (if status = 0 then [] else [.status status 0])
        { k with tm := tm, pending := update k.pending t none })
  | _ => none

/-- `TaskManager::wait`. -/
def wait4 (k : Kernel) (tid : Tid) (status : BitVec 64) : Option Outcome := do
  let t ← k.tm.getActiveTask
  match waitTarget k.tm t tid with
  -- "No child to wait" and "Invalid tid"
  | none => some (.returned pidError [] k)
  | some child => do
      let tm ← k.tm.wait child
      let k := { k with tm := tm }
      match tm.waiting t with
      -- "Waiting on a non-child"
      | .no => some (.returned pidError [] k)
      | .cond _ => some (.sleeps { k with pending := update k.pending t (some (.wait status)) })
      | .ended _ => removeChild k t status

/-- `Handle::getInode`. -/
def getInode : Handle → Except IoError CpioInode
  | .file inode _ => .ok inode
  | _ => .error .NotFound

def AT_SYMLINK_NOFOLLOW : BitVec 32 := 0x100

def lookupOptions (flags : BitVec 32) : LookupOptions :=
  if flags &&& AT_SYMLINK_NOFOLLOW ≠ 0 then .NoFollowSymlink else .None

def statOf (target : CpioInode) : Stat where
  st_nlink := 1
  st_size := target.i_size
  st_mode := target.i_mode
  st_blksize := 1
  st_blocks := (target.i_size + 511) / 512

/-- The inode that `newfstatat` looks a path up from. -/
inductive Start where
  | startsAt (inode : CpioInode)
  /-- It returns before. -/
  | fails

/-- The part of `newfstatat` before the lookup. -/
def statStart (k : Kernel) (dirfd : Int) (path : Str) : Option Start :=
  if path.head? = some slash then some (.startsAt (cpioFs children).root)
  else if dirfd ≥ 0 then
    -- "empty pathname not supported in newfstatat"
    if path = [] then some .fails
    else do
      let t ← k.tm.getActiveTask
      match ← (k.files t).getHandle dirfd with
      -- "fd not found"
      | none => some .fails
      | some handle =>
        match getInode handle with
        -- "No inode associated"
        | .error _ => some .fails
        | .ok inode => some (.startsAt inode)
  -- "newfstatat with negative fd and relative path"
  else some .fails

def newfstatat (k : Kernel) (dirfd : Int) (path : Str) (buf : BitVec 64) (flags : BitVec 32) :
    Option Outcome := do
  match ← statStart children k dirfd path with
  | .fails => some (fail k)
  | .startsAt inode => do
      match ← lookup (cpioFs children) (lookupOptions flags) depth inode path
          MAX_SYMLINK_INDIRECTIONS with
      -- "Can't get target inode"
      | .error _ => some (fail k)
      | .ok target => some (.returned 0 [.stat buf (statOf target)] k)

end

/-! ## The dispatcher -/

/-- `ScId`. -/
inductive ScId where
  | read
  | write
  | openFile
  | close
  | fstat
  | mmap
  | clone
  | execve
  | wait4
  | arch_prctl
  | exit
  | openat
  | newfstatat
  | print
  deriving DecidableEq

/-- `syscall.tbl`. -/
def syscallTable : List (Nat × ScId) :=
  [(0, .read), (1, .write), (2, .openFile), (3, .close), (5, .fstat), (9, .mmap), (56, .clone),
    (59, .execve), (61, .wait4), (158, .arch_prctl), (231, .exit), (257, .openat),
    (262, .newfstatat), (300, .print)]

/-- The enumerator behind the last one. -/
def last_id : Nat := 301

/-- The handler at a number. -/
def g_syscallHandlers (id : Nat) : Option ScId := syscallTable.lookup id

section

variable (children : List CpioInode) (depth : Nat) (user : User)

/-- The handler, with the arguments that `SysCallExecutor` gives it. -/
def dispatch (k : Kernel) (st : InterruptState) : ScId → Option Outcome
  | .read => read k (toInt st.rdi) st.rsi st.rdx.toNat
  | .write => write user k (toInt st.rdi) st.rsi st.rdx.toNat
  | .openFile => openFile children depth k (user.cstring st.rdi)
  | .close => close k (toInt st.rdi)
  -- "fstat not implemented"
  | .fstat => some (fail k)
  | .mmap => mmap k st.rsi.toNat
  | .wait4 => wait4 k (toPid st.rdi) st.rsi
  | .arch_prctl => some (.returned 0 [] k)
  | .openat => openat children depth k (toInt st.rdi) (user.cstring st.rsi)
  | .newfstatat =>
    newfstatat children depth k (toInt st.rdi) (user.cstring st.rsi) st.rdx (st.rcx.setWidth 32)
  | .print => some (.returned 0 [] k)
  | .clone => some .elsewhere
  | .execve => some .elsewhere
  | .exit => some .elsewhere

/-- `sys::handle`. -/
def handle (k : Kernel) (st : InterruptState) : Option Outcome := do
  -- "Interrupts were disabled in a user task"
  assert (st.cs = Cpu.SYSTEM_CS ∨ st.rflags.getLsbD 9 = true)
  assert (st.rax.toNat < last_id)
  match g_syscallHandlers st.rax.toNat with
  | some id => dispatch children depth user k st id
  -- "Unknown syscall"
  | none => some (.returned 0 [] k)

/-- The rest of the call that the active task has slept in. -/
def resume (k : Kernel) : Option Outcome := do
  let t ← k.tm.getActiveTask
  match k.pending t with
  | some (.read buf count) => readInto k buf count
  | some (.wait status) => removeChild k t status
  | none => none

inductive Request where
  | call (st : InterruptState)
  | resume

def answer (k : Kernel) : Request → Option Outcome
  | .call st => handle children depth user k st
  | .resume => resume k

end

/-! ## Runs -/

/-- `Tty::feedInput`, from where the mutex is taken. The wake-ups are steps of their own. -/
def feedInput (k : Kernel) (data : UInt8) : Option Kernel :=
  -- '\b'
  if data = 8 then
    if k.stdin = [] then some k
    else do
      let screen ← k.screen.putChar ⟨data, .LightGrey, .Black⟩
      some { k with stdin := k.stdin.dropLast, screen := screen }
  else do
    let screen ← k.screen.putChar ⟨data, .LightGrey, .Black⟩
    some { k with stdin := k.stdin ++ [data], screen := screen }

inductive Act where
  /-- The active task makes a call, or goes on with one. -/
  | ask (user : User) (r : Request)
  /-- What else happens to the tasks: they are cloned, exit, are woken up and scheduled. -/
  | tasks (a : Tasks.Ticking.Action)
  | input (data : UInt8)
  /-- The memory is changed by faults, by `clone` and by `execve`. -/
  | memory (world : World) (root : Tid → Nat) (curPtr : Nat) (room : Nat → Bool)
    (around : Nat → UInt8)

/-- The kernel after a call. -/
def Outcome.kernel : Outcome → Option Kernel
  | .returned _ _ k => some k
  | .sleeps k => some k
  | .elsewhere => none

/-- The descriptors of a task, which for a new one are the standard ones. -/
def filesOf (k : Kernel) (t : Tid) : FileManager Handle :=
  if t ∈ k.tm.tasks then k.files t else FileManager.init .stdIn .stdOut

def step (children : List CpioInode) (depth : Nat) (k : Kernel) : Act → Option Kernel
  | .ask user r => (answer children depth user k r).bind Outcome.kernel
  | .tasks a => (Tasks.Ticking.step k.tm a).map fun tm => { k with tm := tm, files := filesOf k }
  | .input data => feedInput k data
  | .memory world root curPtr room around =>
    some { k with world := world, root := root, curPtr := curPtr, room := room, around := around }

/-- A call is made by a task that is in no other, and goes on after its sleep. -/
def Guard (k : Kernel) : Act → Prop
  | .ask _ (.call _) => k.tm.Outside
  | .ask _ .resume => k.tm.queued k.tm.activeTask = false
  | .tasks a => Tasks.Ticking.Guard k.tm a
  | _ => True

instance (k : Kernel) : (a : Act) → Decidable (Guard k a)
  | .ask _ (.call _) => inferInstanceAs (Decidable k.tm.Outside)
  | .ask _ .resume => inferInstanceAs (Decidable (_ = _))
  | .tasks a => inferInstanceAs (Decidable (Tasks.Ticking.Guard k.tm a))
  | .input _ | .memory .. => inferInstanceAs (Decidable True)

/-- Before the first task, with any memory. -/
def boot (world : World) (root : Tid → Nat) : Kernel where
  tm := TaskManager.start
  files _ := FileManager.init .stdIn .stdOut
  stdin := []
  screen := Screen.clear ⟨fun _ => 0, ⟨0, 0⟩, []⟩
  world := world
  root := root
  curPtr := Paging.Mmap.firstPtr
  room _ := true
  around _ := 0
  pending _ := none

end Flix.Sys

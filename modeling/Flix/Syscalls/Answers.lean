import Flix.Exec.Mapping
import Flix.Syscalls.Handlers

/-!
# No argument stops the kernel, with exceptions

A system call is to return to the task, or to sleep and return later, whatever the
arguments are; and a number, a descriptor or a task that does not exist is to be answered
with an error that leaves the tables alone.

The arguments that are not caught are these. A number that has no handler is answered
with 0, and from 301 on with a failed assertion; so is a negative descriptor, in all calls
but `newfstatat`. A descriptor that was closed is closed with success. Waiting for the
first task dereferences its parent, which is null, and waiting for a child that has left
children of its own fails the assertion that orphans are not implemented. A path that ends
in more links than the stack has room for is followed until it overflows. `mmap` maps page
after page, over what is there and beyond what there is memory for. `write` puts what it
writes into a string for the log first, whether or not there is room for it.

`Fine` is the absence of all these, and `answered_of_fine` says that there are no others.
-/

namespace Flix.Sys

open Function Fs Runs
open Cpu (InterruptState)
open Tasks (Tid ANY)
open Tasks.Ticking (TaskManager getActiveTask_eq_some)

section

variable (children : List CpioInode) (depth : Nat) (user : User) (k : Kernel) (t : Tid)

/-! ## The condition -/

/-- The links at the end of a path, if there is a lookup, are not too many for the stack. -/
def FewLinks (options : LookupOptions) (i : CpioInode) (path : Str) : Prop :=
  links (cpioFs children) options depth (i, path) = none

/-- No task has it for its parent. -/
def Childless (tm : TaskManager) (c : Tid) : Prop := ∀ u ∈ tm.tasks, tm.parent u ≠ some c

/-- `mmap` has memory for the tables of all its pages, and they are in the lower half and not
mapped. -/
def MmapFine (length : Nat) : Prop :=
  ∃ R S, Exec.Roomy R S (9 * Paging.Mmap.nbPages length) k.world (k.root t) ∧
    ∀ j < Paging.Mmap.nbPages length, k.curPtr + j * 4096 < 2 ^ 47 ∧
      (Paging.pte k.world (k.root t) (BitVec.ofNat 64 (k.curPtr + j * 4096))).p = false

/-- The arguments that are caught, for each handler. -/
def FineCall (st : InterruptState) : ScId → Prop
  | .read => 0 ≤ toInt st.rdi
  | .write => k.room st.rdx.toNat = true ∧ 0 ≤ toInt st.rdi
  | .close => 0 ≤ toInt st.rdi ∧ ¬ (k.files t).Hole (toInt st.rdi).toNat
  | .openFile => (user.cstring st.rdi).head? = some slash →
      FewLinks children depth .None (cpioFs children).root
        ((cstr (user.cstring st.rdi)).drop 1)
  | .openat => (user.cstring st.rsi).head? = some slash →
      FewLinks children depth .None (cpioFs children).root
        ((cstr (user.cstring st.rsi)).drop 1)
  | .newfstatat => ∀ i, statStart children k (toInt st.rdi) (user.cstring st.rsi)
        = some (.startsAt i) →
      FewLinks children depth (lookupOptions (st.rcx.setWidth 32)) i (user.cstring st.rsi)
  | .mmap => st.rsi.toNat = 0 ∨ MmapFine k t st.rsi.toNat
  | .wait4 => ∀ c, waitTarget k.tm t (toPid st.rdi) = some c → k.tm.parent c ≠ none ∧
      (k.tm.parent c = some t → k.tm.state c = .Zombie → Childless k.tm c)
  | _ => True

def Fine : Request → Prop
  | .call st => ∃ id, g_syscallHandlers st.rax.toNat = some id ∧
      FineCall children depth user k t st id
  | .resume => ∀ c, k.tm.waiting t = .ended c → Childless k.tm c

/-! ## What is promised -/

/-- The descriptor is not open. -/
def BadFd (fd : Int) : Prop := fd < 0 ∨ (k.files t).table fd.toNat = none

/-- There is no such child. -/
def BadTid (tid : Tid) : Prop :=
  ¬ ∃ c ∈ k.tm.tasks, k.tm.parent c = some t ∧ (tid = ANY ∨ tid = c)

/-- Arguments that name what does not exist. -/
def Invalid (user : User) : Request → Prop
  | .call st =>
    match g_syscallHandlers st.rax.toNat with
    | none => True
    | some .read => BadFd k t (toInt st.rdi)
    | some .write => BadFd k t (toInt st.rdi)
    | some .close => BadFd k t (toInt st.rdi)
    | some .newfstatat =>
      (user.cstring st.rsi).head? ≠ some slash ∧ BadFd k t (toInt st.rdi)
    | some .wait4 => BadTid k t (toPid st.rdi)
    | some _ => False
  | .resume => False

/-- What -1 is in the type of the handler. -/
def errorOf : Request → BitVec 64
  | .call st => if g_syscallHandlers st.rax.toNat = some .wait4 then pidError else errorValue
  | .resume => errorValue

/-- The call returns or sleeps, and what does not exist is an error. -/
def Answered (r : Request) : Prop :=
  ∃ o, answer children depth user k r = some o ∧
    (Invalid k t user r → ∃ stores k', o = .returned (errorOf r) stores k' ∧
      k'.tm = k.tm ∧ k'.files = k.files)

/-- Task `t` is active. It makes a call from its own code, with interrupts enabled; or it has
slept in one and is to go on. -/
def Asks : Request → Prop
  | .call st => k.tm.getActiveTask = some t ∧ k.tm.queued t = false ∧ k.tm.waiting t = .no ∧
      (st.cs = Cpu.SYSTEM_CS ∨ st.rflags.getLsbD 9 = true) ∧
      ∀ id ∈ g_syscallHandlers st.rax.toNat, id ≠ .clone ∧ id ≠ .execve ∧ id ≠ .exit
  | .resume => k.tm.getActiveTask = some t ∧ k.tm.queued t = false ∧
      ((∃ buf count, k.pending t = some (.read buf count)) ∧ k.tm.waiting t = .no ∨
        (∃ status, k.pending t = some (.wait status)) ∧ ∃ c, k.tm.waiting t = .ended c)

end

variable {children : List CpioInode} {depth : Nat} {user : User} {k : Kernel} {t : Tid}
  {st : InterruptState}

/-- What holds between the steps. -/
structure Good (k : Kernel) : Prop where
  tasks : Tasks.Ticking.Sound k.tm
  ticks : Tasks.Ticking.Ticks k.tm
  cursor : k.screen.cursor.Valid

/-! ## Descriptors -/

variable {fd : Int} {r : Request} {tm : TaskManager} {path : Str} {c : Tid} {status buf : BitVec 64}
  {count : Nat}

theorem getHandle_eq {fm : FileManager Handle} (h : 0 ≤ fd) :
    fm.getHandle fd = some (fm.table fd.toNat) := by
  unfold FileManager.getHandle
  rw [assert_pos h]
  by_cases hle : fm.files.length ≤ fd.toNat
  · rw [FileManager.table_eq_none_of_le hle]
    exact if_pos hle
  · exact if_neg hle

theorem getHandle_neg {fm : FileManager Handle} (h : ¬ 0 ≤ fd) : fm.getHandle fd = none := by
  unfold FileManager.getHandle assert
  rw [if_neg h]
  rfl

/-- A result is there, and is the error `v` and changes no table if the arguments are `bad`. -/
def Answers (v : BitVec 64) (k : Kernel) (result : Option Outcome) (bad : Prop) : Prop :=
  ∃ o, result = some o ∧ (bad → ∃ stores k', o = .returned v stores k' ∧
    k'.tm = k.tm ∧ k'.files = k.files)

variable {result : Option Outcome} {bad : Prop} {v : BitVec 64}

theorem answers_fail : Answers v k (some (.returned v [] k)) bad :=
  ⟨_, rfl, fun _ => ⟨[], k, rfl, rfl, rfl⟩⟩

theorem not_answers_none : ¬ Answers v k none bad := by
  intro ⟨o, ho, _⟩
  cases ho

/-- For arguments that are not bad, to be answered is to come back. -/
theorem answers_iff_isSome (hv : ¬ bad) : Answers v k result bad ↔ result.isSome := by
  rw [isSome_iff_exists]
  constructor
  · intro ⟨o, ho, _⟩
    exact ⟨o, ho⟩
  · intro ⟨o, ho⟩
    exact ⟨o, ho, fun hb => absurd hb hv⟩

theorem answer_call {id : ScId} (ha : Asks k t (.call st))
    (hid : g_syscallHandlers st.rax.toNat = some id) :
    answer children depth user k (.call st) = dispatch children depth user k st id := by
  have hlt : st.rax.toNat < last_id := by
    obtain ⟨before, after, htable, -⟩ := List.lookup_eq_some_iff.mp hid
    have hall : ∀ p ∈ syscallTable, p.1 < last_id := by decide
    refine hall (st.rax.toNat, id) ?_
    rw [htable]
    exact mem_append_right _ mem_cons_self
  simp only [answer, handle]
  rw [assert_pos ha.2.2.2.1, assert_pos hlt]
  simp only [bind_eq_bind, bind_some, hid]

theorem answered_call {id : ScId} (ha : Asks k t (.call st))
    (hid : g_syscallHandlers st.rax.toNat = some id) (hbad : Invalid k t user (.call st) ↔ bad) :
    Answered children depth user k t (.call st) ↔
      Answers (errorOf (.call st)) k (dispatch children depth user k st id) bad := by
  rw [← answer_call ha hid]
  simp only [Answered, Answers, hbad]

theorem not_badFd {h : Handle} (hfd : 0 ≤ fd)
    (htab : (k.files t).table fd.toNat = some h) : ¬ BadFd k t fd := by
  intro hbad
  rcases hbad with hneg | hnone
  · omega
  · rw [htab] at hnone
    cases hnone

theorem prepareMeForSleep_some (h : tm.getActiveTask = some t) :
    ∃ tm', tm.prepareMeForSleep = some tm' := by
  unfold TaskManager.prepareMeForSleep
  rw [h]
  exact ⟨_, rfl⟩

theorem readInto_some (h : k.tm.getActiveTask = some t) (buf : BitVec 64) (count : Nat) :
    ∃ o, readInto k buf count = some o := by
  unfold readInto
  rw [h]
  split
  · obtain ⟨tm', htm⟩ := prepareMeForSleep_some h
    rw [htm]
    exact ⟨_, rfl⟩
  · exact ⟨_, rfl⟩

/-! ## The handlers, one by one -/

/-- A call that finds its descriptor open comes back. -/
theorem descriptor_answers {f : Option Handle → Option Outcome} (hnone : f none = some (fail k))
    (hsome : ∀ h, (f (some h)).isSome) :
    Answers errorValue k (((k.files t).getHandle fd).bind f) (BadFd k t fd) ↔ 0 ≤ fd := by
  by_cases hfd : 0 ≤ fd
  · refine iff_of_true ?_ hfd
    rw [getHandle_eq hfd]
    cases htab : (k.files t).table fd.toNat with
    | none =>
      rw [bind_some, hnone]
      exact answers_fail
    | some h => exact (answers_iff_isSome (not_badFd hfd htab)).mpr (hsome h)
  · rw [getHandle_neg hfd]
    exact iff_of_false not_answers_none hfd

/-- The lookup of a path comes back if its links are not too many. -/
theorem lookupPath_isSome_iff {options : LookupOptions} :
    (lookupPath (cpioFs children) options depth path).isSome ↔
      (path.head? = some slash →
        FewLinks children depth options (cpioFs children).root ((cstr path).drop 1)) := by
  unfold lookupPath
  by_cases hnil : path = []
  · rw [hnil]
    exact iff_of_true rfl (fun h => by cases h)
  · rw [if_neg hnil]
    by_cases hslash : path.head? = some slash
    · rw [if_neg (not_not.mpr hslash), lookup_isSome_iff]
      exact ⟨fun h _ => h, fun h => h hslash⟩
    · rw [if_pos hslash]
      exact iff_of_true rfl (fun h => absurd h hslash)

section

variable (ha : k.tm.getActiveTask = some t)
include ha

theorem read_answers :
    Answers errorValue k (read k fd buf count) (BadFd k t fd) ↔ 0 ≤ fd := by
  rw [read, ha, bind_eq_bind, bind_some]
  refine descriptor_answers rfl fun h => ?_
  cases h with
  | stdIn =>
    obtain ⟨o, ho⟩ := readInto_some ha buf count
    show (if count = 0 then _ else _ : Option Outcome).isSome
    rw [ho]
    split <;> rfl
  | stdOut => rfl
  | file inode h => rfl

theorem write_answers (hg : Good k) :
    Answers errorValue k (write user k fd buf count) (BadFd k t fd) ↔
      k.room count = true ∧ 0 ≤ fd := by
  by_cases hroom : k.room count = true
  swap
  · rw [write, assert, if_neg hroom]
    exact iff_of_false not_answers_none fun h => hroom h.1
  rw [and_iff_right hroom]
  rw [write, assert_pos hroom, bind_eq_bind, bind_some, ha, bind_eq_bind, bind_some]
  refine descriptor_answers rfl fun h => ?_
  cases h with
  | stdIn => rfl
  | stdOut =>
    -- the cursor is on the screen, so no character fails an assertion
    obtain ⟨s', hput, -, -⟩ := Console.Screen.putAll_bounds
      (Console.Call.glyphs (.sized (user.bytes buf count) .LightGrey .Black)) hg.cursor
    have hstring : k.screen.putString
        (.sized (user.bytes buf count) .LightGrey .Black) = some s' := hput
    rw [writeOut, hstring]
    rfl
  | file inode h => rfl

theorem close_answers :
    Answers errorValue k (close k fd) (BadFd k t fd) ↔ 0 ≤ fd ∧ ¬ (k.files t).Hole fd.toNat := by
  unfold close FileManager.close assert
  rw [ha, bind_eq_bind, bind_some]
  by_cases hfd : 0 ≤ fd
  · rw [if_pos hfd]
    by_cases hle : (k.files t).files.length ≤ fd.toNat
    · -- beyond the table
      simp only [hle, if_true, bind_eq_bind, bind_some, update_eq_self]
      exact iff_of_true answers_fail ⟨hfd, fun hole => absurd hole.1 (Nat.not_lt.mpr hle)⟩
    · simp only [hle]
      constructor
      · intro ⟨o, ho, hinv⟩
        refine ⟨hfd, fun hole => ?_⟩
        obtain ⟨stores, k', rfl, -, -⟩ := hinv (Or.inr hole.2)
        -- 0 is no error
        have hvalue : ofInt 0 = errorValue := (Outcome.returned.inj (Option.some.inj ho)).1
        exact absurd hvalue (by decide)
      · intro ⟨_, hhole⟩
        refine (answers_iff_isSome fun hbad => ?_).mpr rfl
        rcases hbad with hneg | hnone
        · omega
        · exact hhole ⟨Nat.lt_of_not_le hle, hnone⟩
  · rw [if_neg hfd]
    exact iff_of_false not_answers_none (fun h => hfd h.1)

theorem openFile_isSome_iff :
    (openFile children depth k path).isSome ↔
      (path.head? = some slash →
        FewLinks children depth .None (cpioFs children).root ((cstr path).drop 1)) := by
  rw [← lookupPath_isSome_iff]
  unfold openFile
  rw [ha]
  simp only [bind_eq_bind]
  cases lookupPath (cpioFs children) .None depth path with
  | none => exact Iff.rfl
  | some inode =>
    simp only [bind_some]
    split <;> rfl

/-- Before the lookup nothing goes wrong, and a descriptor that is not open is noticed. -/
theorem statStart_cases {dirfd : Int} :
    statStart children k dirfd path = some .fails ∨
      ∃ i, statStart children k dirfd path = some (.startsAt i) ∧
        (path.head? ≠ some slash → ¬ BadFd k t dirfd) := by
  unfold statStart
  by_cases hslash : path.head? = some slash
  · rw [if_pos hslash]
    exact Or.inr ⟨_, rfl, fun h => absurd hslash h⟩
  · rw [if_neg hslash]
    by_cases hfd : dirfd ≥ 0
    · rw [if_pos hfd]
      by_cases hnil : path = []
      · exact Or.inl (if_pos hnil)
      · rw [if_neg hnil, ha]
        simp only [bind_eq_bind, bind_some, getHandle_eq hfd]
        cases htab : (k.files t).table dirfd.toNat with
        | none => exact Or.inl rfl
        | some h =>
          cases h with
          | stdIn => exact Or.inl rfl
          | stdOut => exact Or.inl rfl
          | file inode h => exact Or.inr ⟨inode, rfl, fun _ => not_badFd hfd htab⟩
    · exact Or.inl (if_neg hfd)

theorem newfstatat_answers {dirfd : Int} {flags : BitVec 32} :
    Answers errorValue k (newfstatat children depth k dirfd path buf flags)
        (path.head? ≠ some slash ∧ BadFd k t dirfd) ↔
      ∀ i, statStart children k dirfd path = some (.startsAt i) →
        FewLinks children depth (lookupOptions flags) i path := by
  unfold newfstatat
  have hcases : statStart children k dirfd path = some .fails ∨
      ∃ i, statStart children k dirfd path = some (.startsAt i) ∧
        (path.head? ≠ some slash → ¬ BadFd k t dirfd) := statStart_cases ha
  rcases hcases with hstart | ⟨i, hstart, hvalid⟩
  · rw [hstart]
    exact iff_of_true answers_fail (fun i hi => by cases hi)
  · rw [hstart, answers_iff_isSome (fun h => hvalid h.1 h.2)]
    have hlookup : (lookup (cpioFs children) (lookupOptions flags) depth i path
        MAX_SYMLINK_INDIRECTIONS).isSome ↔ FewLinks children depth (lookupOptions flags) i path :=
      lookup_isSome_iff ..
    simp only [bind_eq_bind, bind_some]
    constructor
    · intro h j hj
      cases hj
      refine hlookup.mp ?_
      cases hres : lookup (cpioFs children) (lookupOptions flags) depth i path
          MAX_SYMLINK_INDIRECTIONS with
      | none =>
        rw [hres] at h
        cases h
      | some res => rfl
    · intro h
      obtain ⟨res, hres⟩ := isSome_iff_exists.mp (hlookup.mpr (h i rfl))
      rw [hres]
      cases res <;> rfl

end

/-! ## Waiting -/

theorem waitTarget_mem {tid : Tid} (h : waitTarget tm t tid = some c) :
    c ∈ tm.tasks ∧ (tid = ANY ∨ tid = c) := by
  unfold waitTarget at h
  split at h
  · rename_i htid
    exact ⟨List.mem_of_find?_eq_some h, Or.inl htid⟩
  · split at h
    · rename_i hin
      cases h
      exact ⟨hin, Or.inr rfl⟩
    · cases h

/-- What `TaskManager::wait` does with a task of the table. -/
theorem wait_eq (ha : tm.getActiveTask = some t) (hc : c ∈ tm.tasks) :
    (tm.parent c = none ∧ tm.wait c = none) ∨
    (∃ p, tm.parent c = some p ∧ p ≠ t ∧ tm.wait c = some tm) ∨
    (tm.parent c = some t ∧ tm.state c = .Zombie ∧
      tm.wait c = some { tm with waiting := update tm.waiting t (.ended c) }) ∨
    (tm.parent c = some t ∧ tm.state c ≠ .Zombie ∧
      ∃ tm', tm.wait c = some tm' ∧ tm'.waiting t = .cond c) := by
  unfold TaskManager.wait
  rw [ha]
  simp only [bind_eq_bind, bind_some, if_pos hc]
  cases hpar : tm.parent c with
  | none => exact Or.inl ⟨rfl, rfl⟩
  | some p =>
    simp only [bind_some]
    by_cases hp : p = t
    · subst hp
      rw [if_neg (not_not.mpr rfl)]
      by_cases hz : tm.state c = .Zombie
      · rw [if_pos hz]
        exact Or.inr (Or.inr (Or.inl ⟨rfl, hz, rfl⟩))
      · rw [if_neg hz]
        refine Or.inr (Or.inr (Or.inr ⟨rfl, hz, ?_⟩))
        have ha' : TaskManager.getActiveTask { tm with
            stateCond := update tm.stateCond c (tm.stateCond c ++ [p])
            waiting := update tm.waiting p (.cond c) } = some p := ha
        unfold TaskManager.prepareMeForSleep
        rw [ha']
        exact ⟨_, rfl, update_self ..⟩
    · rw [if_pos hp]
      exact Or.inr (Or.inl ⟨p, rfl, hp, rfl⟩)

/-- Who has seen a zombie has not slept. -/
theorem wait_ended {tm' : TaskManager} {c' : Tid} (ha : tm.getActiveTask = some t)
    (hc : c ∈ tm.tasks) (hout : tm.Outside) (hs : tm.wait c = some tm')
    (hended : tm'.waiting t = .ended c') : tm'.queued tm'.activeTask = false := by
  rcases wait_eq ha hc with ⟨-, h⟩ | ⟨p, -, -, h⟩ | ⟨-, -, h⟩ | ⟨-, -, tm1, h, hcond⟩
  · cases h.symm.trans hs
  · cases h.symm.trans hs
    exact hout.1
  · cases h.symm.trans hs
    exact hout.1
  · cases h.symm.trans hs
    cases hcond.symm.trans hended

theorem removeChild_isSome_iff (ha : k.tm.getActiveTask = some t)
    (hw : k.tm.waiting t = .ended c) (hc : c ∈ k.tm.tasks) :
    (removeChild k t status).isSome ↔ Childless k.tm c := by
  have hremove : k.tm.removeChild.isSome ↔ Childless k.tm c := by
    unfold TaskManager.removeChild
    rw [ha]
    simp only [bind_eq_bind, bind_some, hw, assert_pos hc]
    unfold assert
    by_cases hless : ∀ u ∈ k.tm.tasks, k.tm.parent u ≠ some c
    · rw [if_pos hless]
      exact iff_of_true rfl hless
    · rw [if_neg hless]
      exact iff_of_false (by simp) hless
  rw [← hremove]
  unfold removeChild
  rw [hw]
  cases k.tm.removeChild <;> exact Iff.rfl

theorem wait4_answers {tid : Tid} (hact : k.tm.getActiveTask = some t)
    (hw : k.tm.waiting t = .no) :
    Answers pidError k (wait4 k tid status) (BadTid k t tid) ↔
      ∀ c, waitTarget k.tm t tid = some c → k.tm.parent c ≠ none ∧
        (k.tm.parent c = some t → k.tm.state c = .Zombie → Childless k.tm c) := by
  rw [wait4, hact, bind_eq_bind, bind_some]
  cases htarget : waitTarget k.tm t tid with
  | none => exact iff_of_true answers_fail (fun c hc => by cases hc)
  | some c =>
    obtain ⟨hc, htid⟩ := waitTarget_mem htarget
    -- the target is a child, so nothing is invalid
    have hvalid : k.tm.parent c = some t → ¬ BadTid k t tid := fun hpar hbad =>
      hbad ⟨c, hc, hpar, htid⟩
    have hone : (∀ c', some c = some c' → k.tm.parent c' ≠ none ∧
        (k.tm.parent c' = some t → k.tm.state c' = .Zombie → Childless k.tm c'))
        ↔ k.tm.parent c ≠ none ∧
          (k.tm.parent c = some t → k.tm.state c = .Zombie → Childless k.tm c) := by
      constructor
      · intro h
        exact h c rfl
      · intro h c' hc'
        cases hc'
        exact h
    rw [hone]
    simp only [bind_eq_bind]
    rcases wait_eq hact hc with
      ⟨hpar, hwait⟩ | ⟨p, hpar, hne, hwait⟩ | ⟨hpar, hz, hwait⟩ | ⟨hpar, hz, tm', hwait, hcond⟩
    · -- the parent is null
      rw [hwait]
      exact iff_of_false not_answers_none (fun h => h.1 hpar)
    · simp only [hwait, bind_some, hw]
      refine iff_of_true answers_fail ⟨by rw [hpar]; simp, fun h => ?_⟩
      exact absurd (mem_unique hpar h) hne
    · simp only [hwait, bind_some, update_self]
      have hremove : (removeChild
          { k with tm := { k.tm with waiting := update k.tm.waiting t (.ended c) } } t
          status).isSome ↔ Childless k.tm c :=
        removeChild_isSome_iff hact (update_self ..) hc
      rw [answers_iff_isSome (hvalid hpar), hremove]
      constructor
      · intro h
        exact ⟨by rw [hpar]; simp, fun _ _ => h⟩
      · intro h
        exact h.2 hpar hz
    · simp only [hwait, bind_some, hcond]
      refine iff_of_true ((answers_iff_isSome (hvalid hpar)).mpr rfl)
        ⟨by rw [hpar]; simp, fun _ h => ?_⟩
      exact absurd h hz

/-! ## Memory -/

section Mmap

open Paging Exec

variable {R : Nat → Prop} {S n : Nat} {w : World} {root cur : Nat}

/-- Pages for the user that are deferred are accepted in the lower half. -/
theorem accepts_deferred {v : VAddr} (hv : Low v) :
    Accepts v (ATTR_RW + ATTR_PUBLIC + ATTR_DEFER + ATTR_NOEXEC) := by
  have hv' : v.toNat < 2 ^ 47 := hv
  refine ⟨fun h => absurd h.2 (by decide), fun h => ?_, by decide⟩
  omega

/-- The loop of `mmap` comes to its end if there is room, and no page is in its way. -/
theorem mmapLoop_some : ∀ {n cur : Nat} {w : World}, Roomy R S (9 * n) w root →
    (∀ j < n, cur + j * 4096 < 2 ^ 47 ∧ (pte w root (BitVec.ofNat 64 (cur + j * 4096))).p = false) →
    ∃ r, Mmap.mmapLoop root n w cur = some r := by
  intro n
  induction n with
  | zero => intro cur w _ _; exact ⟨_, rfl⟩
  | succ n ih =>
    intro cur w hroom hpages
    obtain ⟨hlow, hp⟩ := hpages 0 (Nat.succ_pos n)
    have hnat : (BitVec.ofNat 64 cur).toNat = cur := by
      rw [BitVec.toNat_ofNat]
      omega
    have hv : Low (BitVec.ofNat 64 cur) := by
      show (BitVec.ofNat 64 cur).toNat < 2 ^ 47
      omega
    have hpool := hroom.pool
    obtain ⟨w1, a, hmap, hst, hpool1, -⟩ := mapPage_total (c := 9 * n)
      (hroom.stock.mono (by omega)) (by omega) hroom.dir (accepts_deferred hv) hp
      (Apart.of_private (Nat.le_refl _) hv.not_shared)
    have hsize : PAGE_SIZE = 4096 := rfl
    have hpages1 : ∀ j < n, cur + 4096 + j * 4096 < 2 ^ 47 ∧
        (pte w1 root (BitVec.ofNat 64 (cur + 4096 + j * 4096))).p = false := by
      intro j hj
      obtain ⟨hlow', hp'⟩ := hpages (j + 1) (by omega)
      have heq : cur + (j + 1) * 4096 = cur + 4096 + j * 4096 := by omega
      rw [heq] at hlow' hp'
      refine ⟨hlow', ?_⟩
      -- the page behind is not touched
      obtain ⟨e, -, hview⟩ := mapPage_private hroom.stock.ready.sound hroom.dir hmap
      have hnat' : (BitVec.ofNat 64 (cur + 4096 + j * 4096)).toNat = cur + 4096 + j * 4096 := by
        rw [BitVec.toNat_ofNat]
        omega
      have hv' : Low (BitVec.ofNat 64 (cur + 4096 + j * 4096)) := by
        show (BitVec.ofNat 64 (cur + 4096 + j * 4096)).toNat < 2 ^ 47
        omega
      have hslot : slotOf root (BitVec.ofNat 64 (cur + 4096 + j * 4096))
          ≠ slotOf root (BitVec.ofNat 64 cur) := by
        intro hs
        have hpage : (BitVec.ofNat 64 (cur + 4096 + j * 4096)).toNat / 4096
            = (BitVec.ofNat 64 cur).toNat / 4096 := (slot_iff hv' hv).mp hs
        omega
      rw [hview _ hroom.dir hv'.not_shared, if_neg hslot]
      exact hp'
    obtain ⟨r, hr⟩ := ih ⟨hst.mono (by omega), by omega, hroom.dir⟩ hpages1
    refine ⟨r, ?_⟩
    rw [Mmap.mmapLoop, hmap]
    rw [Nat.mod_eq_of_lt (by omega)]
    exact hr

end Mmap

theorem mmap_isSome (ha : k.tm.getActiveTask = some t) {length : Nat}
    (hfine : length = 0 ∨ MmapFine k t length) : (mmap k length).isSome := by
  unfold mmap
  by_cases hzero : length = 0
  · rw [if_pos hzero]
    rfl
  · rw [if_neg hzero, ha]
    obtain ⟨R, S, hroom, hpages⟩ := hfine.resolve_left hzero
    obtain ⟨⟨w', cur'⟩, hloop⟩ := mmapLoop_some hroom hpages
    have hmmap : Paging.Mmap.mmap k.world k.curPtr (k.root t) length
        = some (w', cur', k.curPtr) := by
      rw [Paging.Mmap.mmap, if_neg hzero, hloop]
      rfl
    rw [bind_eq_bind, bind_some, hmmap]
    rfl

/-! ## All of them -/

/-- A number without a handler is never answered with an error. -/
theorem not_answered_unknown (ha : Asks k t (.call st))
    (hid : g_syscallHandlers st.rax.toNat = none) :
    ¬ Answered children depth user k t (.call st) := by
  intro ⟨o, ho, hinv⟩
  obtain ⟨stores, k', rfl, -, -⟩ := hinv (by simp only [Invalid, hid])
  simp only [answer, handle] at ho
  rw [assert_pos ha.2.2.2.1] at ho
  obtain ⟨-, ho⟩ := of_assert ho
  rw [hid] at ho
  have hvalue : (0 : BitVec 64) = errorOf (.call st) := (Outcome.returned.inj (Option.some.inj ho)).1
  rw [errorOf, hid] at hvalue
  exact absurd hvalue (by decide)

theorem answered_resume (hg : Good k) (ha : Asks k t .resume) :
    Answered children depth user k t .resume ↔ Fine children depth user k t .resume := by
  obtain ⟨hact, -, hpending⟩ := ha
  have hvalid : ¬ Invalid k t user .resume := fun h => h
  refine (answers_iff_isSome hvalid).trans ?_
  simp only [answer, resume, hact, bind_eq_bind, bind_some, Fine]
  rcases hpending with ⟨⟨buf, count, hread⟩, hno⟩ | ⟨⟨status, hwait⟩, c, hc⟩
  · rw [hread, hno]
    obtain ⟨o, ho⟩ := readInto_some hact buf count
    exact iff_of_true (isSome_iff_exists.mpr ⟨o, ho⟩) (fun c hc => by cases hc)
  · rw [hwait]
    have hmem := (hg.tasks.ended t c hc).1
    rw [removeChild_isSome_iff hact hc hmem]
    constructor
    · intro h c' hc'
      rw [hc] at hc'
      cases hc'
      exact h
    · intro h
      exact h c hc

/-- A request is answered if it is fine; and but for `mmap`, which may have more memory than it is
sure to, only then. -/
theorem Good.answered (hg : Good k) (ha : Asks k t r) :
    (Fine children depth user k t r → Answered children depth user k t r) ∧
      ((∀ st, r = .call st → g_syscallHandlers st.rax.toNat ≠ some .mmap) →
        Answered children depth user k t r → Fine children depth user k t r) := by
  cases r with
  | resume => exact ⟨(answered_resume hg ha).mpr, fun _ => (answered_resume hg ha).mp⟩
  | call st =>
    cases hid : g_syscallHandlers st.rax.toNat with
    | none =>
      constructor
      · intro ⟨id, h, _⟩
        rw [hid] at h
        cases h
      · intro _ h
        exact absurd h (not_answered_unknown ha hid)
    | some id =>
      have hfine : Fine children depth user k t (.call st)
          ↔ FineCall children depth user k t st id := by
        constructor
        · intro ⟨id', h, hcall⟩
          rw [hid] at h
          cases h
          exact hcall
        · intro h
          exact ⟨id, hid, h⟩
      -- a handler that is right about its arguments
      have both : ∀ {v bad}, errorOf (.call st) = v ∧ (Invalid k t user (.call st) ↔ bad) →
          (Answers v k (dispatch children depth user k st id) bad ↔
            FineCall children depth user k t st id) →
          (Fine children depth user k t (.call st) → Answered children depth user k t (.call st))
          ∧ ((∀ st', Request.call st = .call st' →
              g_syscallHandlers st'.rax.toNat ≠ some .mmap) →
            Answered children depth user k t (.call st) →
              Fine children depth user k t (.call st)) := by
        rintro v bad ⟨rfl, hbad⟩ h
        rw [hfine, answered_call ha hid hbad]
        exact ⟨h.mpr, fun _ => h.mp⟩
      obtain ⟨hclone, hexecve, hexit⟩ := ha.2.2.2.2 id hid
      have hact := ha.1
      -- one that only returns a value
      have plain : ∀ {o}, dispatch children depth user k st id = some o →
          FineCall children depth user k t st id →
          (Answers errorValue k (dispatch children depth user k st id) False ↔
            FineCall children depth user k t st id) := by
        intro o ho hf
        exact iff_of_true ((answers_iff_isSome not_false).mpr (by rw [ho]; rfl)) hf
      cases id with
      | read => exact both (by simp [errorOf, Invalid, hid]) (read_answers hact)
      | write => exact both (by simp [errorOf, Invalid, hid]) (write_answers hact hg)
      | openFile =>
        exact both (v := errorValue) (by simp [errorOf, Invalid, hid])
          ((answers_iff_isSome not_false).trans (openFile_isSome_iff hact))
      | close => exact both (by simp [errorOf, Invalid, hid]) (close_answers hact)
      | fstat => exact both (by simp [errorOf, Invalid, hid]) (plain rfl trivial)
      | mmap =>
        refine ⟨fun hf => ?_, fun h => absurd hid (h st rfl)⟩
        have hv : Invalid k t user (.call st) ↔ False := by simp only [Invalid, hid]
        refine (answered_call ha hid hv).mpr ((answers_iff_isSome not_false).mpr ?_)
        exact mmap_isSome hact (hfine.mp hf)
      | clone => exact absurd rfl hclone
      | execve => exact absurd rfl hexecve
      | wait4 => exact both (by simp [errorOf, Invalid, hid]) (wait4_answers hact ha.2.2.1)
      | arch_prctl => exact both (by simp [errorOf, Invalid, hid]) (plain rfl trivial)
      | exit => exact absurd rfl hexit
      | openat =>
        exact both (v := errorValue) (by simp [errorOf, Invalid, hid])
          ((answers_iff_isSome not_false).trans (openFile_isSome_iff hact))
      | newfstatat => exact both (by simp [errorOf, Invalid, hid]) (newfstatat_answers hact)
      | print => exact both (by simp [errorOf, Invalid, hid]) (plain rfl trivial)

/-! ## Every run -/

/-- The tasks have made steps, and the cursor has stayed on the screen. -/
structure Kept (k k' : Kernel) : Prop where
  tasks : Reach Tasks.Ticking.step Tasks.Ticking.Guard k.tm k'.tm
  cursor : k.screen.cursor.Valid → k'.screen.cursor.Valid

variable {k' : Kernel} {o : Outcome}

theorem Kept.of_same (htm : k'.tm = k.tm) (hscreen : k'.screen = k.screen) : Kept k k' :=
  ⟨htm ▸ Reach.start, fun h => hscreen ▸ h⟩

theorem Kept.of_returned {k1 : Kernel} {v : BitVec 64} {stores : List Store}
    (h : some (.returned v stores k1) = some o) (hk : o.kernel = some k') (htm : k1.tm = k.tm)
    (hscreen : k1.screen = k.screen) : Kept k k' := by
  cases h
  cases hk
  exact .of_same htm hscreen

theorem Kept.of_step {a : Tasks.Ticking.Action} (hg : Tasks.Ticking.Guard k.tm a)
    (htm : Tasks.Ticking.step k.tm a = some k'.tm) (hscreen : k'.screen = k.screen) : Kept k k' :=
  ⟨Reach.start.tail hg htm, fun h => hscreen ▸ h⟩

theorem Kept.trans {k1 : Kernel} (h : Kept k k1) (h' : Kept k1 k') : Kept k k' :=
  ⟨h.tasks.trans h'.tasks, fun hv => h'.cursor (h.cursor hv)⟩

theorem Good.of_kept (h : Good k) (hk : Kept k k') : Good k' := by
  have hinv : Tasks.Ticking.Sound k'.tm ∧ Tasks.Ticking.Ticks k'.tm := by
    refine hk.tasks.invariant (I := fun tm => Tasks.Ticking.Sound tm ∧ Tasks.Ticking.Ticks tm)
      ⟨h.tasks, h.ticks⟩ ?_
    intro tm a tm' ih hg hs
    exact Tasks.Ticking.step_keeps ih.1 ih.2 hg hs
  exact ⟨hinv.1, hinv.2, hk.cursor h.cursor⟩

section

variable (hk : o.kernel = some k')
include hk

theorem openFile_kept (h : openFile children depth k path = some o) : Kept k k' := by
  obtain ⟨t, -, h⟩ := of_bind h
  obtain ⟨inode, -, h⟩ := of_bind h
  simp only at h
  split at h <;> exact .of_returned h hk rfl rfl

theorem close_kept (h : close k fd = some o) : Kept k k' := by
  obtain ⟨t, -, h⟩ := of_bind h
  obtain ⟨r, -, h⟩ := of_bind h
  exact .of_returned h hk rfl rfl

theorem readInto_kept (h : readInto k buf count = some o) : Kept k k' := by
  obtain ⟨t, -, h⟩ := of_bind h
  split at h
  · obtain ⟨tm, htm, h⟩ := of_bind h
    cases h
    cases hk
    exact .of_step (a := .prepareMeForSleep) trivial htm rfl
  · exact .of_returned h hk rfl rfl

theorem read_kept (h : read k fd buf count = some o) : Kept k k' := by
  obtain ⟨t, -, h⟩ := of_bind h
  obtain ⟨handle, -, h⟩ := of_bind h
  split at h
  · exact .of_returned h hk rfl rfl
  · split at h
    · exact .of_returned h hk rfl rfl
    · exact readInto_kept hk h
  · exact .of_returned h hk rfl rfl
  · exact .of_returned h hk rfl rfl

theorem write_kept (h : write user k fd buf count = some o) : Kept k k' := by
  obtain ⟨-, h⟩ := of_assert h
  obtain ⟨t, -, h⟩ := of_bind h
  obtain ⟨handle, -, h⟩ := of_bind h
  split at h
  · exact .of_returned h hk rfl rfl
  · exact .of_returned h hk rfl rfl
  · obtain ⟨screen, hput, h⟩ := of_bind h
    cases h
    cases hk
    refine ⟨Reach.start, fun hv => ?_⟩
    obtain ⟨s', hs', hvalid, -⟩ := Console.Screen.putAll_bounds
      (Console.Call.glyphs (.sized (user.bytes buf count) .LightGrey .Black)) hv
    obtain rfl : screen = s' := mem_unique hput hs'
    exact hvalid
  · exact .of_returned h hk rfl rfl

theorem mmap_kept {length : Nat} (h : mmap k length = some o) : Kept k k' := by
  unfold mmap at h
  split at h
  · exact .of_returned h hk rfl rfl
  · obtain ⟨t, -, h⟩ := of_bind h
    obtain ⟨r, -, h⟩ := of_bind h
    exact .of_returned h hk rfl rfl

theorem removeChild_kept (hq : k.tm.queued k.tm.activeTask = false)
    (h : removeChild k t status = some o) : Kept k k' := by
  unfold removeChild at h
  split at h
  · obtain ⟨tm, htm, h⟩ := of_bind h
    cases h
    cases hk
    exact .of_step (a := .removeChild) hq htm rfl
  · cases h

theorem wait4_kept {tid : Tid} (hout : k.tm.Outside) (h : wait4 k tid status = some o) :
    Kept k k' := by
  obtain ⟨t, ht, h⟩ := of_bind h
  split at h
  · exact .of_returned h hk rfl rfl
  · rename_i child htarget
    obtain ⟨tm, htm, h⟩ := of_bind h
    have hwait : Kept k { k with tm := tm } := .of_step (a := .wait child) hout htm rfl
    split at h
    · cases h
      cases hk
      exact hwait
    · cases h
      cases hk
      exact hwait.trans (.of_same rfl rfl)
    · refine hwait.trans (removeChild_kept hk ?_ h)
      exact wait_ended ht (waitTarget_mem htarget).1 hout htm ‹_›

theorem newfstatat_kept {dirfd : Int} {flags : BitVec 32}
    (h : newfstatat children depth k dirfd path buf flags = some o) : Kept k k' := by
  obtain ⟨start, -, h⟩ := of_bind h
  split at h
  · exact .of_returned h hk rfl rfl
  · obtain ⟨res, -, h⟩ := of_bind h
    split at h <;> exact .of_returned h hk rfl rfl

theorem answer_kept (hg : Guard k (.ask user r)) (h : answer children depth user k r = some o) :
    Kept k k' := by
  cases r with
  | resume =>
    obtain ⟨t, -, h⟩ := of_bind h
    split at h
    · exact readInto_kept hk h
    · exact removeChild_kept hk hg h
    · cases h
  | call st =>
    obtain ⟨-, h⟩ := of_assert h
    obtain ⟨-, h⟩ := of_assert h
    split at h
    · rename_i id _
      cases id with
      | read => exact read_kept hk h
      | write => exact write_kept hk h
      | openFile => exact openFile_kept hk h
      | close => exact close_kept hk h
      | mmap => exact mmap_kept hk h
      | wait4 => exact wait4_kept hk hg h
      | openat => exact openFile_kept hk h
      | newfstatat => exact newfstatat_kept hk h
      | fstat => exact .of_returned h hk rfl rfl
      | arch_prctl => exact .of_returned h hk rfl rfl
      | print => exact .of_returned h hk rfl rfl
      | clone => cases h; cases hk
      | execve => cases h; cases hk
      | exit => cases h; cases hk
    · exact .of_returned h hk rfl rfl

end

theorem feedInput_kept {data : UInt8} (h : feedInput k data = some k') : Kept k k' := by
  have hput : ∀ {screen stdin}, k.screen.putChar ⟨data, .LightGrey, .Black⟩ = some screen →
      Kept k { k with stdin := stdin, screen := screen } := by
    intro screen stdin hs
    refine ⟨Reach.start, fun hv => ?_⟩
    obtain ⟨s', hs', hvalid, -⟩ := Console.Screen.putChar_bounds hv
    obtain rfl : screen = s' := mem_unique hs hs'
    exact hvalid
  unfold feedInput at h
  split at h
  · split at h
    · cases h
      exact .of_same rfl rfl
    · obtain ⟨screen, hs, h⟩ := of_bind h
      cases h
      exact hput hs
  · obtain ⟨screen, hs, h⟩ := of_bind h
    cases h
    exact hput hs

theorem Good.step {a : Act} (h : Good k) (hg : Guard k a)
    (hs : step children depth k a = some k') : Good k' := by
  refine h.of_kept ?_
  cases a with
  | ask user r =>
    obtain ⟨o, ho, hk⟩ := of_bind hs
    exact answer_kept hk hg ho
  | tasks a =>
    obtain ⟨tm, htm, rfl⟩ := map_eq_some_iff.mp hs
    exact .of_step hg htm rfl
  | input data => exact feedInput_kept hs
  | memory world root curPtr room around =>
    cases hs
    exact .of_same rfl rfl

theorem good_boot (world : Paging.World) (root : Tid → Nat) : Good (boot world root) := by
  obtain ⟨hsound, hticks⟩ := Tasks.Ticking.start_keeps
  refine ⟨hsound, hticks, ?_⟩
  show Console.Position.Valid ⟨0, 0⟩
  unfold Console.Position.Valid
  decide

/--
**Which requests are answered**, in every state that any calls, any input and any changes of
tasks and memory lead to: those that are `Fine`; and but for `mmap`, no others.
-/
theorem answered_of_fine (children : List CpioInode) (depth : Nat) (world : Paging.World)
    (root : Tid → Nat) (k : Kernel) (hr : Reach (step children depth) Guard (boot world root) k)
    (user : User) (t : Tid) (r : Request) (ha : Asks k t r) :
    (Fine children depth user k t r → Answered children depth user k t r) ∧
      ((∀ st, r = .call st → g_syscallHandlers st.rax.toNat ≠ some .mmap) →
        Answered children depth user k t r → Fine children depth user k t r) := by
  have hgood : Good k := hr.invariant (good_boot world root) fun _ _ _ h hg hs => h.step hg hs
  exact hgood.answered ha

/-- The registers of a call with one argument. -/
def registers (rax rdi : BitVec 64) : InterruptState where
  r15 := 0
  r14 := 0
  r13 := 0
  r12 := 0
  rbx := 0
  rbp := 0
  r11 := 0
  r10 := 0
  r9 := 0
  r8 := 0
  rax := rax
  rcx := 0
  rdx := 0
  rsi := 0
  rdi := rdi
  intNo := 0x80
  errCode := 0
  rip := 0
  cs := Cpu.SYSTEM_CS
  rflags := 0
  rsp := 0
  ss := 0

/-- Task 1 runs. -/
def firstTask : List Act := [.tasks (.addTask .Runnable), .tasks (.schedule 1)]

/-- It has a child, which has exited. -/
def exitedChild : List Act :=
  firstTask ++ [.tasks .clone, .tasks (.schedule 2), .tasks (.terminateCurrentTask false),
    .tasks (.schedule 1)]

def noMemory : User where
  cstring _ := []
  bytes _ _ := []

theorem answered_of_fine_wait : ∃ k, Reach (step [] 1) Guard (boot Paging.smallKernel fun _ => 0) k ∧ Asks k 1 (.call (registers 61 2)) ∧
    Fine [] 1 noMemory k 1 (.call (registers 61 2)) ∧
    Answered [] 1 noMemory k 1 (.call (registers 61 2)) := by
  have hrun : (guardedRun (step [] 1) Guard (boot Paging.smallKernel fun _ => 0) exitedChild).map
      (fun k => decide (k.tm.getActiveTask = some 1 ∧ k.tm.queued 1 = false ∧
        k.tm.waiting 1 = .no ∧ waitTarget k.tm 1 2 = some 2 ∧ k.tm.parent 2 = some 1 ∧
        ∀ u ∈ k.tm.tasks, k.tm.parent u ≠ some 2)) = some true := by decide
  obtain ⟨k, hk, hv⟩ := map_eq_some_iff.mp hrun
  obtain ⟨hact, hq, hw, htarget, hpar, hless⟩ := of_decide_eq_true hv
  have hr : Reach (step [] 1) Guard (boot Paging.smallKernel fun _ => 0) k :=
    Reach.of_guardedRun hk
  have ha : Asks k 1 (.call (registers 61 2)) := by
    refine ⟨hact, hq, hw, Or.inl rfl, fun id hid => ?_⟩
    obtain rfl : ScId.wait4 = id := Option.some.inj hid
    exact ⟨nofun, nofun, nofun⟩
  have hf : Fine [] 1 noMemory k 1 (.call (registers 61 2)) := by
    refine ⟨.wait4, rfl, fun c hc => ?_⟩
    obtain rfl : 2 = c := Option.some.inj (htarget.symm.trans hc)
    exact ⟨by rw [hpar]; nofun, fun _ _ => hless⟩
  exact ⟨k, hr, ha, hf,
    (answered_of_fine [] 1 Paging.smallKernel (fun _ => 0) k hr noMemory 1 _ ha).1 hf⟩

/-- The number 301, `close` of -1, and `wait4` for the first task stop the kernel. -/
theorem calls_that_stop : ∃ k, Reach (step [] 1) Guard (boot Paging.smallKernel fun _ => 0) k ∧
    ∀ st ∈ [registers 301 0, registers 3 (-1), registers 61 1],
      Asks k 1 (.call st) ∧ ¬ Answered [] 1 noMemory k 1 (.call st) := by
  have hrun : (guardedRun (step [] 1) Guard (boot Paging.smallKernel fun _ => 0) firstTask).map
      (fun k => decide (k.tm.getActiveTask = some 1 ∧ k.tm.queued 1 = false ∧
        k.tm.waiting 1 = .no ∧ (answer [] 1 noMemory k (.call (registers 301 0))).isNone ∧
        (answer [] 1 noMemory k (.call (registers 3 (-1)))).isNone ∧
        (answer [] 1 noMemory k (.call (registers 61 1))).isNone)) = some true := by decide
  obtain ⟨k, hk, hv⟩ := map_eq_some_iff.mp hrun
  obtain ⟨hact, hq, hw, h301, hclose, hwait⟩ := of_decide_eq_true hv
  refine ⟨k, Reach.of_guardedRun hk, fun st hst => ?_⟩
  simp only [mem_cons, not_mem_nil, or_false] at hst
  have key : ∀ {id : Option ScId}, g_syscallHandlers st.rax.toNat = id →
      (∀ i ∈ id, i ≠ .clone ∧ i ≠ .execve ∧ i ≠ .exit) → st.cs = Cpu.SYSTEM_CS →
      (answer [] 1 noMemory k (.call st)).isNone →
      Asks k 1 (.call st) ∧ ¬ Answered [] 1 noMemory k 1 (.call st) := by
    intro id hid hother hcs hnone
    refine ⟨⟨hact, hq, hw, Or.inl hcs, by rw [hid]; exact hother⟩, fun ⟨o, ho, _⟩ => ?_⟩
    rw [ho] at hnone
    cases hnone
  rcases hst with rfl | rfl | rfl
  · exact key rfl (by decide) rfl h301
  · exact key rfl (by decide) rfl hclose
  · exact key rfl (by decide) rfl hwait

end Flix.Sys

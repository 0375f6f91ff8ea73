import Flix.Sync.Model
import Mathlib.Data.List.Perm.Subperm

/-!
# The bytes of the terminal

`Tty::feedInput` appends to a queue and `Tty::readInto` takes from it, both under the
mutex of the terminal. Readers of an empty queue wait on a condition variable that is
signalled only when a line is complete. Here a section under the mutex is one step,
with the release inside `CondVar::wait` as the place where others come in between.

`history` is what has been typed and read, in the order of these sections. `replay`
says what it comes to: the text typed, in which a backspace takes back the last byte
as long as that has not been read. It knows nothing of the queue. The invariant is
that what was read, followed by the queue, is this text.

A reader is in the list of the condition variable only while no line is in the queue:
it enters the list when the queue is empty, and the end of a line empties the list.
-/

namespace Flix.Sync.TtyInput

open Function Fifo Runs

/-! ## The model -/

/-- `'\b'`. -/
def BACKSPACE : UInt8 := 8

/-- `'\n'`. -/
def NEWLINE : UInt8 := 10

inductive Place where
  /-- Not in `readInto`. -/
  | outside
  /-- In the `wait` of `readInto`, which is to read at most `size` bytes. -/
  | waiting (size : Nat)
  deriving DecidableEq

/-- What happens to the terminal. -/
inductive Event where
  | fed (data : UInt8)
  /-- A `readInto` returns. -/
  | read (t : Tid) (size : Nat) (bytes : List UInt8)
  deriving DecidableEq

structure Tty where
  stdin : List UInt8
  /-- `_firstWaiter` and `_lastWaiter` of the condition variable. -/
  waiters : Ends Tid
  waiterCount : Nat
  /-- The `Waiter` of each task. -/
  up : Tid → Bool
  next : Tid → Option Tid
  tasks : List Tid
  place : Tid → Place
  /-- All that happened, in order. No step reads it. -/
  history : List Event

/-- `CondVar::notify_all`. -/
def notifyAll (s : Tty) : Option Tty := do
  let curWaiters ← follow s.next s.tasks.length s.waiters.first
  some { s with
    waiters := Ends.empty
    waiterCount := 0
    up := curWaiters.foldl (fun up w => update up w true) s.up }

/-- `Tty::feedInput`. -/
def feedInput (s : Tty) (data : UInt8) : Option Tty :=
  let s := { s with history := s.history ++ [.fed data] }
  if data = BACKSPACE then
    if s.stdin ≠ [] then some { s with stdin := s.stdin.dropLast } else some s
  else
    let s := { s with stdin := s.stdin ++ [data] }
    if data = NEWLINE then notifyAll s else some s

/-- Links the `Waiter` of `t` at the end of the list. -/
def enlist (s : Tty) (t : Tid) (size : Nat) : Tty :=
  { s with
    waiters := s.waiters.push t
    waiterCount := (s.waiterCount + 1) % 2 ^ 32
    up := update s.up t false
    next := s.waiters.pushNext s.next t
    place := update s.place t (.waiting size) }

/-- `CondVar::wait`, up to the release of the mutex. -/
def wait (s : Tty) (t : Tid) (size : Nat) : Option Tty := do
  assert (s.waiters.last = none → s.waiters.first = none)
  some (enlist s t size)

/-- The loop at the end of `readInto`, for `n` bytes: they go to the buffer, and the rest stays. -/
def copyOut : Nat → List UInt8 → List UInt8 × List UInt8
  | 0, q => ([], q)
  | _ + 1, [] => ([], [])
  | n + 1, c :: q => let (buf, q) := copyOut n q; (c :: buf, q)

/-- The end of `readInto`. -/
def deliver (s : Tty) (t : Tid) (size : Nat) : Tty :=
  let toRead := min size s.stdin.length
  { s with
    stdin := (copyOut toRead s.stdin).2
    place := update s.place t .outside
    history := s.history ++ [.read t size (copyOut toRead s.stdin).1] }

/-- The loop of `readInto`, with the mutex just taken: to the next `wait`, or to the end. -/
def readLoop (s : Tty) (t : Tid) (size : Nat) : Option Tty :=
  if s.stdin = [] then wait s t size else some (deliver s t size)

inductive Action where
  | feedInput (data : UInt8)
  /-- A task calls `readInto`. -/
  | readInto (t : Tid) (size : Nat)
  /-- A task that was notified has the mutex again. -/
  | wake (t : Tid)

def step (s : Tty) : Action → Option Tty
  | .feedInput data => feedInput s data
  | .readInto t size => do
      assert (t ∈ s.tasks ∧ s.place t = .outside)
      if size = 0 then some { s with history := s.history ++ [.read t 0 []] }
      else readLoop s t size
  | .wake t =>
    match s.place t with
    | .outside => none
    | .waiting size => do
        assert (s.up t = true)
        readLoop s t size

/-- A terminal for `tasks`. The count of waiters is not initialised. -/
def start (tasks : List Tid) (garbage : Nat) : Tty where
  stdin := []
  waiters := Ends.empty
  waiterCount := garbage
  up _ := false
  next _ := none
  tasks := tasks
  place _ := .outside
  history := []

/-! ## What the input comes to -/

/-- What was read. -/
def delivered (h : List Event) : List UInt8 :=
  h.flatMap fun
    | .fed _ => []
    | .read _ _ bytes => bytes

/-- The text typed so far, and how much of it has been read. -/
structure Replay where
  text : List UInt8
  taken : Nat

/-- A backspace takes back the last byte that has not been read. -/
def Replay.next (r : Replay) : Event → Replay
  | .fed data =>
    if data = BACKSPACE then
      if r.taken < r.text.length then { r with text := r.text.dropLast } else r
    else { r with text := r.text ++ [data] }
  | .read _ _ bytes => { r with taken := r.taken + bytes.length }

def replay (h : List Event) : Replay := h.foldl Replay.next ⟨[], 0⟩

section Replay

variable {h : List Event}

theorem replay_snoc (h : List Event) (e : Event) : replay (h ++ [e]) = (replay h).next e := by
  rw [replay, List.foldl_append]
  rfl

theorem delivered_snoc_fed (h : List Event) (data : UInt8) :
    delivered (h ++ [.fed data]) = delivered h := by
  simp [delivered]

theorem delivered_snoc_read (h : List Event) (t : Tid) (size : Nat) (bytes : List UInt8) :
    delivered (h ++ [.read t size bytes]) = delivered h ++ bytes := by
  simp [delivered]

/-- What a queue is to be: the part of the text that has not been read. -/
structure InOrder (h : List Event) (stdin : List UInt8) : Prop where
  text : delivered h ++ stdin = (replay h).text
  taken : (delivered h).length = (replay h).taken

variable {q : List UInt8}

theorem InOrder.backspace (hi : InOrder h q) : InOrder (h ++ [.fed BACKSPACE]) q.dropLast := by
  obtain ⟨htext, htaken⟩ := hi
  have hlen : (replay h).taken < (replay h).text.length ↔ q ≠ [] := by
    rw [← htext, length_append, ← List.length_pos_iff]
    omega
  constructor
  · rw [replay_snoc, delivered_snoc_fed, Replay.next, if_pos rfl]
    by_cases hq : q = []
    · rw [if_neg (by rw [hlen]; exact not_not.mpr hq), ← htext, hq]
      rfl
    · rw [if_pos (hlen.mpr hq), ← htext, List.dropLast_append_of_ne_nil hq]
  · rw [replay_snoc, delivered_snoc_fed, htaken, Replay.next, if_pos rfl]
    split <;> rfl

theorem InOrder.feed {data : UInt8} (hi : InOrder h q) (hd : data ≠ BACKSPACE) :
    InOrder (h ++ [.fed data]) (q ++ [data]) := by
  obtain ⟨htext, htaken⟩ := hi
  constructor
  · rw [replay_snoc, delivered_snoc_fed, Replay.next, if_neg hd, ← append_assoc, htext]
  · rw [replay_snoc, delivered_snoc_fed, htaken, Replay.next, if_neg hd]

theorem InOrder.read {buf : List UInt8} (hi : InOrder h (buf ++ q)) (t : Tid) (size : Nat) :
    InOrder (h ++ [.read t size buf]) q := by
  obtain ⟨htext, htaken⟩ := hi
  constructor
  · rw [replay_snoc, delivered_snoc_read, append_assoc, htext, Replay.next]
  · rw [replay_snoc, delivered_snoc_read, length_append, htaken, Replay.next]

end Replay

/-! ## The invariant -/

/-- Reads that return what they should. -/
def ReadsOk (h : List Event) : Prop :=
  ∀ t size bytes, .read t size bytes ∈ h → 0 < size → 1 ≤ bytes.length ∧ bytes.length ≤ size

/-- The waiters. -/
structure WaitersOk (s : Tty) (l : List Tid) : Prop where
  /-- These are in the list of the condition variable. -/
  list : Represents s.next s.waiters l
  /-- They are in `readInto`, and have not been notified. -/
  listed : ∀ t ∈ l, t ∈ s.tasks ∧ (∃ size, s.place t = .waiting size) ∧ s.up t = false
  /-- Whoever waits is in the list or has been notified. -/
  waiting : ∀ t size, s.place t = .waiting size → 0 < size ∧ t ∈ s.tasks ∧ (t ∈ l ∨ s.up t = true)
  /-- Nobody is when there is a line. -/
  line : NEWLINE ∈ s.stdin → l = []

structure Inv (s : Tty) : Prop where
  order : InOrder s.history s.stdin
  reads : ReadsOk s.history
  waiters : ∃ l, WaitersOk s l

section Steps

variable {s s' : Tty} {l : List Tid} {t : Tid} {size : Nat}

theorem foldl_up {ws : List Tid} {up : Tid → Bool} :
    ws.foldl (fun up w => update up w true) up t = true ↔ t ∈ ws ∨ up t = true := by
  induction ws generalizing up with
  | nil => simp
  | cons w ws ih =>
    rw [List.foldl_cons, ih]
    by_cases htw : t = w
    · simp [htw]
    · simp [htw]

theorem copyOut_eq : ∀ (n : Nat) (q : List UInt8), copyOut n q = (q.take n, q.drop n)
  | 0, _ => rfl
  | _ + 1, [] => rfl
  | n + 1, c :: q => by rw [copyOut, copyOut_eq n q]; rfl

theorem WaitersOk.length_le (hw : WaitersOk s l) : l.length ≤ s.tasks.length :=
  (List.subperm_of_subset hw.list.nodup fun t ht => (hw.listed t ht).1).length_le

/-- The end of a line: everyone who waits has been notified. -/
theorem notifyAll_spec (hw : Represents s.next s.waiters l) (hlen : l.length ≤ s.tasks.length) :
    notifyAll s = some { s with
      waiters := Ends.empty
      waiterCount := 0
      up := l.foldl (fun up w => update up w true) s.up } := by
  rw [notifyAll, hw.first, follow_linked _ hw.linked hlen]
  rfl

/-- Typing changes the queue and the history only, and the list at the end of a line. -/
theorem feedInput_inv (hi : Inv s) (data : UInt8) :
    ∃ s', feedInput s data = some s' ∧ Inv s' := by
  obtain ⟨horder, hreads, l, hw⟩ := hi
  have hreads' : ReadsOk (s.history ++ [.fed data]) := by
    intro t size bytes hm
    rcases mem_append.mp hm with hm | hm
    · exact hreads t size bytes hm
    · simp at hm
  unfold feedInput
  by_cases hback : data = BACKSPACE
  · subst hback
    rw [if_pos rfl]
    by_cases hq : s.stdin = []
    · rw [if_neg (not_not.mpr hq)]
      refine ⟨_, rfl, ?_, hreads', l, hw.list, hw.listed, hw.waiting, hw.line⟩
      have hsame := horder.backspace
      rw [hq] at hsame ⊢
      exact hsame
    · rw [if_pos hq]
      exact ⟨_, rfl, horder.backspace, hreads', l, hw.list, hw.listed, hw.waiting,
        fun hm => hw.line ((List.dropLast_sublist _).subset hm)⟩
  · rw [if_neg hback]
    by_cases hline : data = NEWLINE
    · refine ⟨_, (if_pos hline).trans (notifyAll_spec hw.list hw.length_le), horder.feed hback,
        hreads', [], Represents.empty _, fun t ht => absurd ht not_mem_nil,
        fun t size ht => ?_, fun _ => rfl⟩
      obtain ⟨hsize, htask, hor⟩ := hw.waiting t size ht
      exact ⟨hsize, htask, .inr (foldl_up.mpr hor)⟩
    · rw [if_neg hline]
      refine ⟨_, rfl, horder.feed hback, hreads', l, hw.list, hw.listed, hw.waiting, fun hm => ?_⟩
      rcases mem_append.mp hm with hm | hm
      · exact hw.line hm
      · exact absurd (mem_singleton.mp hm).symm hline

theorem WaitersOk.enlist (hw : WaitersOk s l) (htask : t ∈ s.tasks) (hl : t ∉ l) (hsize : 0 < size)
    (hq : s.stdin = []) : WaitersOk (enlist s t size) (l ++ [t]) := by
  refine ⟨hw.list.push hl, fun u hu => ?_, fun u n hu => ?_, fun hm => ?_⟩
  · show u ∈ s.tasks ∧ (∃ n, update s.place t (.waiting size) u = .waiting n) ∧
      update s.up t false u = false
    by_cases hut : u = t
    · subst hut
      exact ⟨htask, ⟨size, update_self ..⟩, update_self ..⟩
    · have hul : u ∈ l := (mem_append.mp hu).resolve_right fun h =>
        hut (mem_singleton.mp h)
      rw [update_of_ne hut, update_of_ne hut]
      exact hw.listed u hul
  · have hu : update s.place t (.waiting size) u = .waiting n := hu
    show 0 < n ∧ u ∈ s.tasks ∧ (u ∈ l ++ [t] ∨ update s.up t false u = true)
    by_cases hut : u = t
    · subst hut
      rw [update_self] at hu
      cases hu
      exact ⟨hsize, htask, .inl (mem_append_right _ (List.mem_singleton_self u))⟩
    · rw [update_of_ne hut] at hu
      obtain ⟨hn, hut', hor⟩ := hw.waiting u n hu
      rw [update_of_ne hut]
      exact ⟨hn, hut', hor.imp (mem_append_left _) id⟩
  · have hm : NEWLINE ∈ s.stdin := hm
    rw [hq] at hm
    exact absurd hm not_mem_nil

/-- A reader that takes something was not in the list, and the others stay where they are. -/
theorem WaitersOk.deliver (hw : WaitersOk s l) (hl : t ∉ l) : WaitersOk (deliver s t size) l := by
  refine ⟨hw.list, fun u hu => ?_, fun u n hu => ?_, fun hm => hw.line ?_⟩
  · have hut : u ≠ t := fun h => hl (h ▸ hu)
    show u ∈ s.tasks ∧ (∃ n, update s.place t .outside u = .waiting n) ∧ s.up u = false
    rw [update_of_ne hut]
    exact hw.listed u hu
  · have hu : update s.place t .outside u = .waiting n := hu
    by_cases hut : u = t
    · rw [hut, update_self] at hu
      cases hu
    · rw [update_of_ne hut] at hu
      exact hw.waiting u n hu
  · rw [TtyInput.deliver, copyOut_eq] at hm
    exact List.mem_of_mem_drop hm

theorem ReadsOk.deliver (hr : ReadsOk s.history) (hq : s.stdin ≠ []) :
    ReadsOk (TtyInput.deliver s t size).history := by
  have hpos : 0 < s.stdin.length := List.length_pos_iff.mpr hq
  intro u n bytes hm hn
  rcases mem_append.mp hm with hm | hm
  · exact hr u n bytes hm hn
  · rw [mem_singleton, copyOut_eq] at hm
    cases hm
    rw [List.length_take]
    omega

theorem InOrder.deliver (ho : InOrder s.history s.stdin) :
    InOrder (TtyInput.deliver s t size).history (TtyInput.deliver s t size).stdin := by
  rw [← List.take_append_drop (min size s.stdin.length) s.stdin] at ho
  simp only [TtyInput.deliver, copyOut_eq]
  exact ho.read t size

/-- One turn of `readInto`: it waits on an empty queue, and otherwise it returns. -/
theorem readLoop_inv (hi : Inv s) (hw : WaitersOk s l) (htask : t ∈ s.tasks) (hl : t ∉ l)
    (hsize : 0 < size) : ∃ s', readLoop s t size = some s' ∧ Inv s' ∧
      (s.stdin ≠ [] → s' = deliver s t size) := by
  unfold readLoop
  split
  · rename_i hq
    have hends : s.waiters.last = none → s.waiters.first = none := fun h =>
      hw.list.first_none.mpr (hw.list.last_none.mp h)
    refine ⟨enlist s t size, ?_, ⟨hi.order, hi.reads, _, hw.enlist htask hl hsize hq⟩,
      fun hne => absurd hq hne⟩
    rw [wait, assert_pos hends]
    rfl
  · rename_i hq
    exact ⟨_, rfl, ⟨hi.order.deliver, hi.reads.deliver hq, l, hw.deliver hl⟩, fun _ => rfl⟩

theorem WaitersOk.not_listed_of_outside (hw : WaitersOk s l) (ht : s.place t = .outside) : t ∉ l := by
  intro hl
  obtain ⟨-, ⟨n, hn⟩, -⟩ := hw.listed t hl
  rw [ht] at hn
  cases hn

theorem WaitersOk.not_listed_of_up (hw : WaitersOk s l) (ht : s.up t = true) : t ∉ l := by
  intro hl
  obtain ⟨-, -, hup⟩ := hw.listed t hl
  rw [ht] at hup
  cases hup

theorem Inv.read_zero (hi : Inv s) : Inv { s with history := s.history ++ [.read t 0 []] } := by
  obtain ⟨horder, hreads, l, hw⟩ := hi
  refine ⟨InOrder.read (show InOrder s.history ([] ++ s.stdin) from horder) t 0, fun u n bytes hm hn => ?_, l, hw.list, hw.listed,
    hw.waiting, hw.line⟩
  rcases mem_append.mp hm with hm | hm
  · exact hreads u n bytes hm hn
  · simp only [mem_singleton, Event.read.injEq] at hm
    omega

theorem inv_step {a : Action} (hi : Inv s) (hs : step s a = some s') : Inv s' := by
  obtain ⟨l, hw⟩ := hi.waiters
  cases a with
  | feedInput data =>
    obtain ⟨s1, hs1, hi1⟩ := feedInput_inv hi data
    obtain rfl := mem_unique hs1 hs
    exact hi1
  | readInto t size =>
    obtain ⟨⟨htask, hout⟩, hs⟩ := of_assert hs
    split at hs
    · cases hs
      exact hi.read_zero
    · obtain ⟨s1, hs1, hi1, -⟩ := readLoop_inv hi hw htask (hw.not_listed_of_outside hout)
        (Nat.pos_of_ne_zero ‹_›)
      obtain rfl := mem_unique hs1 hs
      exact hi1
  | wake t =>
    rw [step] at hs
    split at hs
    · cases hs
    · rename_i size hplace
      obtain ⟨hup, hs⟩ := of_assert hs
      obtain ⟨hsize, htask, -⟩ := hw.waiting t size hplace
      obtain ⟨s1, hs1, hi1, -⟩ := readLoop_inv hi hw htask (hw.not_listed_of_up hup) hsize
      obtain rfl := mem_unique hs1 hs
      exact hi1

theorem inv_start (tasks : List Tid) (garbage : Nat) : Inv (start tasks garbage) :=
  ⟨⟨rfl, rfl⟩, fun _ _ _ hm => absurd hm not_mem_nil,
    [], Represents.empty _, fun _ hm => absurd hm not_mem_nil, nofun, fun _ => rfl⟩

end Steps

/-- What can be said of the terminal in a state. -/
structure Faithful (s : Tty) : Prop where
  /-- Nothing is lost, duplicated or reordered. -/
  order : delivered s.history ++ s.stdin = (replay s.history).text
  /-- Every read that has returned has read something, and not too much. -/
  reads : ReadsOk s.history
  /-- **No reader misses a line**: with a line in the queue the list of the condition variable is
  empty, and whoever is in `wait` has been notified. -/
  lines : ∃ l, Represents s.next s.waiters l ∧ (NEWLINE ∈ s.stdin → l = [] ∧
    ∀ t size, s.place t = .waiting size → s.up t = true)
  /-- No assertion fails in `feedInput`. -/
  feeds : ∀ data, (step s (.feedInput data)).isSome
  /-- Nor in `readInto`, and a reader that finds something returns. -/
  returns : ∀ t size, t ∈ s.tasks → 0 < size →
    ∀ a, a = .readInto t size ∧ s.place t = .outside ∨
        a = .wake t ∧ s.place t = .waiting size ∧ s.up t = true →
      ∃ s', step s a = some s' ∧ (s.stdin ≠ [] → s'.place t = .outside ∧
        ∃ bytes, s'.history = s.history ++ [.read t size bytes])

theorem deliver_returns (s : Tty) (t : Tid) (size : Nat) :
    (deliver s t size).place t = .outside ∧
      ∃ bytes, (deliver s t size).history = s.history ++ [.read t size bytes] :=
  ⟨update_self .., _, rfl⟩

theorem Inv.faithful {s : Tty} (hi : Inv s) : Faithful s := by
  obtain ⟨l, hw⟩ := hi.waiters
  refine ⟨hi.order.text, hi.reads, ⟨l, hw.list, fun hm => ⟨hw.line hm, fun t size ht => ?_⟩⟩,
    fun data => ?_, fun t size htask hsize a ha => ?_⟩
  · have hor := (hw.waiting t size ht).2.2
    rw [hw.line hm] at hor
    exact hor.resolve_left not_mem_nil
  · obtain ⟨s', hs', -⟩ := feedInput_inv hi data
    exact isSome_iff_exists.mpr ⟨s', hs'⟩
  · rcases ha with ⟨rfl, hout⟩ | ⟨rfl, hplace, hup⟩
    · obtain ⟨s', hs', -, hret⟩ := readLoop_inv hi hw htask (hw.not_listed_of_outside hout) hsize
      refine ⟨s', ?_, fun hq => hret hq ▸ deliver_returns s t size⟩
      rw [step, assert_pos ⟨htask, hout⟩]
      exact (if_neg (Nat.ne_of_gt hsize)).trans hs'
    · obtain ⟨s', hs', -, hret⟩ := readLoop_inv hi hw htask (hw.not_listed_of_up hup) hsize
      refine ⟨s', ?_, fun hq => hret hq ▸ deliver_returns s t size⟩
      rw [step, hplace]
      simp only [assert_pos hup]
      exact hs'

/--
**Input is neither lost nor duplicated nor reordered, and no reader misses a line**, whoever types
and reads and however their sections are interleaved.
-/
theorem tty_input_faithful {tasks : List Tid} {garbage : Nat} {s : Tty}
    (hs : Reach step (fun _ _ => True) (start tasks garbage) s) : Faithful s :=
  (hs.invariant (inv_start tasks garbage) fun _ _ _ hi _ h => inv_step hi h).faithful

/-- Two readers wait, a line with a correction is typed, the first one takes 2 of its 3 bytes. -/
def lineRun : List Action :=
  [.readInto 1 2, .readInto 2 5, .feedInput 97, .feedInput 98, .feedInput BACKSPACE, .feedInput 99,
    .feedInput NEWLINE, .wake 1]

theorem tty_input_faithful_lineRun : ∃ s, run step (start [1, 2] 0) lineRun = some s ∧
    s.history.getLast? = some (.read 1 2 [97, 99]) ∧ s.stdin = [NEWLINE] ∧ Faithful s := by
  have hrun : (run step (start [1, 2] 0) lineRun).map (fun s => (s.history.getLast?, s.stdin))
      = some (some (.read 1 2 [97, 99]), [NEWLINE]) := by decide
  obtain ⟨s, hs, hfacts⟩ := map_eq_some_iff.mp hrun
  obtain ⟨hlast, hq⟩ := Prod.mk.inj hfacts
  exact ⟨s, hs, hlast, hq, tty_input_faithful (Reach.of_run (fun _ _ _ => trivial) hs)⟩

end Flix.Sync.TtyInput

import Mathlib.Data.List.Nodup

/-!
# The checker of test logs

`testex.py`. The tests of the kernel print markers to a log: `[BEGIN TEST "name"]`,
`[FAIL]`, `[END TEST]`, and `[ALL TESTS RUN]` when all is over. `LogProcessor` reads
the lines of the log, and is finished when they were in order.

What in order means is said without the processor: the markers of the log are those of
a list of tests, one after the other, with the last marker behind them, and no two of
the tests have one name. The processor keeps no more of a log than a state and the
names of the tests, so that both directions go through what these are between two
lines: from a state in which a test is running, what is to come begins with what is
left of that test.
-/

namespace Flix.Testex

/-! ## The model -/

abbrev Bytes := List UInt8

/-- A line of the log, which was split at its newlines. -/
abbrev Line := { l : Bytes // 10 ∉ l }

/-- `[BEGIN TEST "` -/
def START : Bytes := [91, 66, 69, 71, 73, 78, 32, 84, 69, 83, 84, 32, 34]

/-- `"]` -/
def START_END : Bytes := [34, 93]

/-- `[END TEST]` -/
def END : Bytes := [91, 69, 78, 68, 32, 84, 69, 83, 84, 93]

/-- `[FAIL]` -/
def FAIL : Bytes := [91, 70, 65, 73, 76, 93]

/-- `[ALL TESTS RUN]` -/
def FINISH : Bytes := [91, 65, 76, 76, 32, 84, 69, 83, 84, 83, 32, 82, 85, 78, 93]

/-- `_TEST_START_RE.match`, with the group. In a line without a newline the group is all that
stands between the two ends. -/
def matchStart (line : Bytes) : Option Bytes :=
  let rest := line.drop START.length
  if START <+: line ∧ START_END <:+ rest then some (rest.take (rest.length - START_END.length))
  else none

inductive State where
  | NONE
  | TESTING
  | FINISHED
  deriving DecidableEq

/-- The text of an error, and the name that is put into it. -/
structure Error where
  format : String
  name : Option Bytes := none
  deriving DecidableEq

structure LogProcessor where
  state : State
  error : Option Error
  test_ok : Bool
  failed_tests : List (Option Bytes)
  successed_tests : List (Option Bytes)
  running_test : Option Bytes
  deriving DecidableEq

namespace LogProcessor

/-- `LogProcessor.__init__`. -/
def init : LogProcessor := ⟨.NONE, none, true, [], [], none⟩

def is_finished (p : LogProcessor) : Prop := p.state = .FINISHED ∧ p.error = none

instance (p : LogProcessor) : Decidable p.is_finished := inferInstanceAs (Decidable (_ ∧ _))

/-- A `return False` with an error. -/
def fail (p : LogProcessor) (e : Error) : LogProcessor × Bool := ({ p with error := some e }, false)

/-- What `LogProcessor.process` does for the begin of a test. -/
def processStart (p : LogProcessor) (name : Bytes) : LogProcessor × Bool :=
  if p.state ≠ .NONE then p.fail ⟨"Test begin at the wrong moment: %s", some name⟩
  else if some name ∈ p.successed_tests ∨ some name ∈ p.failed_tests then
    p.fail ⟨"Same test name used more than once: %s", some name⟩
  else ({ p with running_test := some name, state := .TESTING, test_ok := true }, true)

/-- For the end of a test. -/
def processEnd (p : LogProcessor) : LogProcessor × Bool :=
  if p.state ≠ .TESTING then p.fail ⟨"Test end at the wrong moment", none⟩
  else
    let p := if p.test_ok
      then { p with successed_tests := p.successed_tests ++ [p.running_test] }
      else { p with failed_tests := p.failed_tests ++ [p.running_test] }
    ({ p with running_test := none, state := .NONE }, true)

/-- For a failure. -/
def processFail (p : LogProcessor) : LogProcessor × Bool :=
  if p.state ≠ .TESTING then p.fail ⟨"Test fail at the wrong moment", none⟩
  else ({ p with test_ok := false }, true)

/-- For the end of all tests. -/
def processFinish (p : LogProcessor) : LogProcessor × Bool :=
  if p.state ≠ .NONE then p.fail ⟨"End of tests at the wrong moment", none⟩
  else ({ p with state := .FINISHED }, true)

/-- `LogProcessor.process`. -/
def process (p : LogProcessor) (line : Line) : LogProcessor × Bool :=
  match matchStart line.1 with
  | some name => p.processStart name
  | none =>
    if line.1 = END then p.processEnd
    else if line.1 = FAIL then p.processFail
    else if line.1 = FINISH then p.processFinish
    else (p, true)

/-- The loop of `run_and_process`, with what is done for each item. -/
def feed {α : Type} (f : LogProcessor → α → LogProcessor × Bool) :
    LogProcessor → List α → LogProcessor
  | p, [] => p
  | p, a :: as =>
    match f p a with
    | (p, true) => feed f p as
    | (p, false) => p

/-- A log is processed by a new processor. -/
def run (lines : List Line) : LogProcessor := feed process init lines

end LogProcessor

/-! ## Logs in order -/

inductive Marker where
  | BEGIN (name : Bytes)
  | FAIL
  | END
  | FINISH
  deriving DecidableEq

/-- The line that is a marker. -/
def Marker.line : Marker → Bytes
  | .BEGIN name => START ++ name ++ START_END
  | .FAIL => Testex.FAIL
  | .END => Testex.END
  | .FINISH => Testex.FINISH

/-- A test, as the log tells it. -/
structure Test where
  name : Bytes
  /-- How often it failed. -/
  fails : Nat

def Test.markers (t : Test) : List Marker :=
  .BEGIN t.name :: (List.replicate t.fails .FAIL ++ [.END])

/-- What the tests leave in the log. -/
def log (tests : List Test) : List Marker := tests.flatMap Test.markers ++ [.FINISH]

/-- The markers among some lines. -/
inductive Markers : List Line → List Marker → Prop where
  | nil : Markers [] []
  | marker {line : Line} {lines : List Line} {m : Marker} {ms : List Marker} :
      line.1 = m.line → Markers lines ms → Markers (line :: lines) (m :: ms)
  | other {line : Line} {lines : List Line} {ms : List Marker} :
      (∀ m : Marker, line.1 ≠ m.line) → Markers lines ms → Markers (line :: lines) ms

/-! ## Lines and markers -/

theorem matchStart_eq_some {line name : Bytes} :
    matchStart line = some name ↔ line = START ++ name ++ START_END := by
  unfold matchStart
  constructor
  · intro h
    dsimp only at h
    split at h
    · rename_i hm
      obtain ⟨⟨rest, rfl⟩, hsuf⟩ := hm
      rw [List.drop_left] at h hsuf
      obtain ⟨mid, rfl⟩ := hsuf
      rw [List.length_append, Nat.add_sub_cancel, List.take_left] at h
      rw [Option.some.inj h, List.append_assoc]
    · cases h
  · intro h
    subst h
    rw [List.append_assoc, List.drop_left, if_pos ⟨List.prefix_append _ _, List.suffix_append _ _⟩,
      List.length_append, Nat.add_sub_cancel, List.take_left]

namespace LogProcessor

variable {p q : LogProcessor}

/-- What is done for a marker. -/
def step (p : LogProcessor) : Marker → LogProcessor × Bool
  | .BEGIN name => p.processStart name
  | .END => p.processEnd
  | .FAIL => p.processFail
  | .FINISH => p.processFinish

theorem process_marker {line : Line} {m : Marker} (h : line.1 = m.line) :
    p.process line = p.step m := by
  unfold process
  cases m with
  | BEGIN name => rw [matchStart_eq_some.mpr h]; rfl
  | FAIL => rw [h]; rfl
  | END => rw [h]; rfl
  | FINISH => rw [h]; rfl

theorem process_other {line : Line} (h : ∀ m : Marker, line.1 ≠ m.line) :
    p.process line = (p, true) := by
  have hstart : matchStart line.1 = none := by
    refine Option.eq_none_iff_forall_not_mem.mpr fun name hn => ?_
    exact h (.BEGIN name) (matchStart_eq_some.mp hn)
  have hend : line.1 ≠ END := h .END
  have hfail : line.1 ≠ FAIL := h .FAIL
  have hfinish : line.1 ≠ FINISH := h .FINISH
  unfold process
  rw [hstart]
  rw [if_neg hend, if_neg hfail, if_neg hfinish]

theorem feed_process {lines : List Line} {ms : List Marker} (h : Markers lines ms) :
    ∀ {p : LogProcessor}, feed process p lines = feed step p ms := by
  induction h with
  | nil => exact rfl
  | marker heq _ ih =>
    intro p
    unfold feed
    rw [process_marker heq]
    split
    · exact ih
    · rfl
  | other hne _ ih =>
    intro p
    rw [feed, process_other hne]
    exact ih

end LogProcessor

theorem Markers.exists (lines : List Line) : ∃ ms, Markers lines ms := by
  induction lines with
  | nil => exact ⟨[], .nil⟩
  | cons line lines ih =>
    obtain ⟨ms, hms⟩ := ih
    by_cases h : ∃ m : Marker, line.1 = m.line
    · obtain ⟨m, hm⟩ := h
      exact ⟨m :: ms, .marker hm hms⟩
    · exact ⟨ms, .other (fun m hm => h ⟨m, hm⟩) hms⟩

/-! ## Logs in order are accepted -/

namespace LogProcessor

variable {p q : LogProcessor} {ms : List Marker}

theorem feed_cons {m : Marker} (h : p.step m = (q, true)) : feed step p (m :: ms) = feed step q ms := by
  rw [feed, h]

/-- No test of the name is over. -/
def Fresh (p : LogProcessor) (name : Bytes) : Prop :=
  some name ∉ p.successed_tests ∧ some name ∉ p.failed_tests

/-- Between two tests. -/
structure Idle (p : LogProcessor) : Prop where
  state : p.state = .NONE
  error : p.error = none

/-- After a test. -/
def ended (p : LogProcessor) (t : Test) : LogProcessor where
  state := .NONE
  error := p.error
  test_ok := t.fails = 0
  failed_tests := if t.fails = 0 then p.failed_tests else p.failed_tests ++ [some t.name]
  successed_tests := if t.fails = 0 then p.successed_tests ++ [some t.name] else p.successed_tests
  running_test := none

theorem feed_fails (k : Nat) : ∀ {p : LogProcessor}, p.state = .TESTING →
    feed step p (List.replicate k .FAIL ++ ms)
      = feed step { p with test_ok := p.test_ok && k = 0 } ms := by
  induction k with
  | zero => intro p _; simp
  | succ k ih =>
    intro p h
    have hstep : p.step .FAIL = ({ p with test_ok := false }, true) := if_neg (not_not_intro h)
    rw [List.replicate_succ, List.cons_append, feed_cons hstep, ih (p := { p with test_ok := false }) h]
    simp

theorem feed_test {t : Test} (h : p.Idle) (hf : p.Fresh t.name) :
    feed step p (t.markers ++ ms) = feed step (p.ended t) ms := by
  have hstart : p.step (.BEGIN t.name)
      = ({ p with running_test := some t.name, state := .TESTING, test_ok := true }, true) := by
    show p.processStart t.name = _
    unfold processStart
    rw [if_neg (not_not_intro h.state), if_neg (not_or.mpr hf)]
  rw [Test.markers, List.cons_append, feed_cons hstart, List.append_assoc, feed_fails _ rfl]
  refine feed_cons ?_
  show processEnd _ = _
  unfold processEnd ended
  by_cases hk : t.fails = 0 <;> simp [hk]

/-- The processor on a log in order. -/
theorem feed_log : ∀ {tests : List Test} {p : LogProcessor}, p.Idle →
    (tests.map Test.name).Nodup → (∀ t ∈ tests, p.Fresh t.name) →
    (feed step p (log tests)).is_finished ∧
    (feed step p (log tests)).failed_tests
      = p.failed_tests ++ (tests.filter (·.fails ≠ 0)).map (some ·.name) ∧
    (feed step p (log tests)).successed_tests
      = p.successed_tests ++ (tests.filter (·.fails = 0)).map (some ·.name)
  | [], p, h, _, _ => by
    have hstep : p.step .FINISH = ({ p with state := .FINISHED }, true) :=
      if_neg (not_not_intro h.state)
    rw [log, List.flatMap_nil, List.nil_append, feed_cons hstep]
    exact ⟨⟨rfl, h.error⟩, by simp [feed], by simp [feed]⟩
  | t :: tests, p, h, hnd, hf => by
    obtain ⟨ht, hnd⟩ := List.nodup_cons.mp hnd
    obtain ⟨hft, hf⟩ := List.forall_mem_cons.mp hf
    have hf' : ∀ t' ∈ tests, (p.ended t).Fresh t'.name := by
      intro t' ht'
      have hne : t'.name ≠ t.name := fun heq => ht (heq ▸ List.mem_map_of_mem ht')
      obtain ⟨h1, h2⟩ := hf t' ht'
      unfold Fresh ended
      split <;> simp [h1, h2, hne]
    have hlog := feed_log (p := p.ended t) ⟨rfl, h.error⟩ hnd hf'
    rw [log, List.flatMap_cons, List.append_assoc, feed_test h hft]
    refine ⟨hlog.1, hlog.2.1.trans ?_, hlog.2.2.trans ?_⟩
    · by_cases hk : t.fails = 0 <;> simp [ended, hk]
    · by_cases hk : t.fails = 0 <;> simp [ended, hk]

end LogProcessor

/-! ## Logs that are accepted are in order -/

namespace LogProcessor

variable {p q : LogProcessor} {m : Marker}

theorem step_eq_true (h : p.step m = (q, true)) :
    (∃ name, m = .BEGIN name ∧ p.state = .NONE ∧ p.Fresh name ∧
      q = { p with running_test := some name, state := .TESTING, test_ok := true }) ∨
    (m = .FAIL ∧ p.state = .TESTING ∧ q = { p with test_ok := false }) ∨
    (m = .END ∧ p.state = .TESTING ∧ q.state = .NONE ∧ q.error = p.error ∧
      ∀ name, q.Fresh name → p.Fresh name ∧ p.running_test ≠ some name) ∨
    (m = .FINISH ∧ p.state = .NONE ∧ q = { p with state := .FINISHED }) := by
  cases m with
  | BEGIN name =>
    simp only [step, processStart] at h
    split at h
    · cases h
    split at h
    · cases h
    · rename_i hs hf
      obtain rfl := (Prod.mk.inj h).1
      exact .inl ⟨name, rfl, Decidable.of_not_not hs, not_or.mp hf, rfl⟩
  | FAIL =>
    simp only [step, processFail] at h
    split at h
    · cases h
    · rename_i hs
      obtain rfl := (Prod.mk.inj h).1
      exact .inr (.inl ⟨rfl, Decidable.of_not_not hs, rfl⟩)
  | END =>
    simp only [step, processEnd] at h
    split at h
    · cases h
    · rename_i hs
      obtain rfl := (Prod.mk.inj h).1
      refine .inr (.inr (.inl ⟨rfl, Decidable.of_not_not hs, rfl, ?_, fun name hf => ?_⟩))
      · split <;> rfl
      · unfold Fresh at hf ⊢
        cases hok : p.test_ok
        · simp only [hok, Bool.false_eq_true, if_false, List.mem_append, List.mem_singleton,
            not_or] at hf
          exact ⟨⟨hf.1, hf.2.1⟩, fun heq => hf.2.2 heq.symm⟩
        · simp only [hok, if_true, List.mem_append, List.mem_singleton, not_or] at hf
          exact ⟨⟨hf.1.1, hf.2⟩, fun heq => hf.1.2 heq.symm⟩
  | FINISH =>
    simp only [step, processFinish] at h
    split at h
    · cases h
    · rename_i hs
      obtain rfl := (Prod.mk.inj h).1
      exact .inr (.inr (.inr ⟨rfl, Decidable.of_not_not hs, rfl⟩))

theorem error_of_step (h : p.step m = (q, false)) : q.error ≠ none := by
  cases m <;> simp only [step, processStart, processEnd, processFail, processFinish] at h
  all_goals repeat' split at h
  all_goals
    cases h
    try simp

/-- What is to come in a log that is in order. -/
def Expects (p : LogProcessor) (ms : List Marker) : Prop :=
  match p.state with
  | .NONE => ∃ tests, ms = log tests ∧ (tests.map Test.name).Nodup ∧ ∀ t ∈ tests, p.Fresh t.name
  | .TESTING => ∀ name, p.running_test = some name → ∃ k tests,
      ms = List.replicate k .FAIL ++ .END :: log tests ∧ (tests.map Test.name).Nodup ∧
        ∀ t ∈ tests, p.Fresh t.name ∧ t.name ≠ name
  | .FINISHED => ms = []

theorem expects_of_is_finished : ∀ {ms : List Marker} {p : LogProcessor}, p.error = none →
    (feed step p ms).is_finished → p.Expects ms
  | [], p, _, h => by
    unfold Expects
    rw [show p.state = .FINISHED from h.1]
  | m :: ms, p, herr, h => by
    rw [feed] at h
    split at h
    · rename_i q hstep
      obtain ⟨name, rfl, hs, hf, rfl⟩ | ⟨rfl, hs, rfl⟩ | ⟨rfl, hs, hs', herr', hf⟩ | ⟨rfl, hs, rfl⟩ :=
        step_eq_true hstep
      · -- the test that begins is the first one
        have hexp : Expects { p with running_test := some name, state := .TESTING, test_ok := true }
            ms := expects_of_is_finished herr h
        obtain ⟨k, tests, rfl, hnd, hfresh⟩ := hexp name rfl
        unfold Expects
        rw [hs]
        refine ⟨⟨name, k⟩ :: tests, ?_, List.nodup_cons.mpr ⟨fun hmem => ?_, hnd⟩, ?_⟩
        · simp [log, Test.markers]
        · obtain ⟨t, ht, heq⟩ := List.mem_map.mp hmem
          exact (hfresh t ht).2 heq
        · exact List.forall_mem_cons.mpr ⟨hf, fun t ht => (hfresh t ht).1⟩
      · have hexp : Expects { p with test_ok := false } ms := expects_of_is_finished herr h
        unfold Expects at hexp ⊢
        rw [hs] at hexp ⊢
        intro name hname
        obtain ⟨k, tests, rfl, hrest⟩ := hexp name hname
        exact ⟨k + 1, tests, rfl, hrest⟩
      · have hexp : q.Expects ms := expects_of_is_finished (herr'.trans herr) h
        unfold Expects at hexp ⊢
        rw [hs'] at hexp
        rw [hs]
        obtain ⟨tests, rfl, hnd, hfresh⟩ := hexp
        intro name hname
        refine ⟨0, tests, rfl, hnd, fun t ht => ?_⟩
        obtain ⟨hft, hne⟩ := hf t.name (hfresh t ht)
        exact ⟨hft, fun heq => hne (heq ▸ hname)⟩
      · have hexp : Expects { p with state := .FINISHED } ms := expects_of_is_finished herr h
        obtain rfl : ms = [] := hexp
        unfold Expects
        rw [hs]
        exact ⟨[], rfl, List.nodup_nil, fun t ht => absurd ht List.not_mem_nil⟩
    · rename_i q hstep
      exact absurd h.2 (error_of_step hstep)

end LogProcessor

/-! ## The checker -/

/-- **The checker accepts the logs that are in order, and these only**, and then it has each test
in one of its lists, in the order of their ends: in the one or in the other as it failed or not. -/
theorem run_is_finished_iff (lines : List Line) :
    ((LogProcessor.run lines).is_finished ↔
      ∃ tests, Markers lines (log tests) ∧ (tests.map Test.name).Nodup) ∧
    ∀ tests, Markers lines (log tests) ∧ (tests.map Test.name).Nodup →
      (LogProcessor.run lines).failed_tests = (tests.filter (·.fails ≠ 0)).map (some ·.name) ∧
      (LogProcessor.run lines).successed_tests = (tests.filter (·.fails = 0)).map (some ·.name) := by
  have hlog : ∀ tests, Markers lines (log tests) ∧ (tests.map Test.name).Nodup →
      (LogProcessor.run lines).is_finished ∧
      (LogProcessor.run lines).failed_tests = (tests.filter (·.fails ≠ 0)).map (some ·.name) ∧
      (LogProcessor.run lines).successed_tests = (tests.filter (·.fails = 0)).map (some ·.name) := by
    intro tests ⟨hm, hnd⟩
    rw [LogProcessor.run, LogProcessor.feed_process hm]
    exact LogProcessor.feed_log ⟨rfl, rfl⟩ hnd fun t _ => ⟨List.not_mem_nil, List.not_mem_nil⟩
  refine ⟨⟨fun h => ?_, fun ⟨tests, h⟩ => (hlog tests h).1⟩, fun tests h => (hlog tests h).2⟩
  obtain ⟨ms, hms⟩ := Markers.exists lines
  rw [LogProcessor.run, LogProcessor.feed_process hms] at h
  obtain ⟨tests, rfl, hnd, -⟩ := LogProcessor.expects_of_is_finished rfl h
  exact ⟨tests, hms, hnd⟩

end Flix.Testex

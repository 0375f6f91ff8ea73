import Mathlib.Data.List.TakeWhile
import Flix.Testex.LogProcessor

/-!
# From the tests to their checker

`test/helpers.hpp`, `run.py`. The markers and the log of the kernel go to one port. A log
handler writes its bytes one by one, and any task can come in between; `printE9` has the
interrupts off, so that what it prints stays together. It begins a line of its own wherever
the log stands, and ends it.
-/

namespace Flix.Testex

/-! ## The two ends -/

/-- What goes to port `0xe9`. -/
inductive Output where
  | printE9 (str : Bytes)
  | sputc (ch : UInt8)
  deriving DecidableEq

def Output.bytes : Output → Bytes
  | .printE9 str => str.takeWhile (· ≠ 0)
  | .sputc ch => [ch]

def Output.isPrint : Output → Bool
  | .printE9 _ => true
  | .sputc _ => false

def Marker.print (m : Marker) : Output := .printE9 (10 :: m.line ++ [10])

/-- `th::runTest`; with `runTestProcesses` the body is what the processes print together. -/
def runTest (name : Bytes) (func : List Output) : List Output :=
  (Marker.BEGIN name).print :: func ++ [Marker.END.print]

def fail : Output := Marker.FAIL.print

def finish : Output := Marker.FINISH.print

/-- `waitEnd`, with what its tests print themselves. -/
def waitEnd (tests : List Test) : List Output :=
  tests.flatMap (fun t => runTest t.name (List.replicate t.fails fail)) ++ [finish]

/-- `stdout.split(b'\n')`, with the line so far. -/
def splitLines : Line → Bytes → List Line
  | line, [] => [line]
  | line, c :: cs =>
    if h : c = 10 then line :: splitLines ⟨[], List.not_mem_nil⟩ cs
    else splitLines ⟨line.1 ++ [c], by simp [line.2, Ne.symm h]⟩ cs

/-- What `run.py` exits with, when the emulator ended with `returncode` and the log is as the
kernel wrote it. -/
def exitStatus (returncode : Int) (out : List Output) : Nat :=
  let p := LogProcessor.run (splitLines ⟨[], List.not_mem_nil⟩ (out.flatMap Output.bytes))
  -- "Finished with error", of a `log_processor` that is assigned only afterwards
  if returncode ≠ 0 then 1
  else if p.error ≠ none then 1
  else if ¬ p.is_finished then 1
  else if p.failed_tests.length ≠ 0 then 1
  else 0

/-! ## Markers between the bytes of the log -/

variable {out : List Output} {tests : List Test} {ms : List Marker} {m : Marker}

theorem waitEnd_eq (tests : List Test) : waitEnd tests = (log tests).map Marker.print := by
  simp [waitEnd, log, List.map_flatMap, runTest, Test.markers, fail, finish]

/-- The marker stays on one line, and `printE9` prints all of it. -/
def Marker.Clean (m : Marker) : Prop := 10 ∉ m.line ∧ 0 ∉ m.line

theorem clean_of_mem_log (h : ∀ t ∈ tests, 10 ∉ t.name ∧ 0 ∉ t.name) (hm : m ∈ log tests) :
    m.Clean := by
  cases m with
  | BEGIN name =>
    obtain ⟨t, ht, rfl⟩ : ∃ t ∈ tests, name = t.name := by
      simpa [log, Test.markers, List.mem_replicate] using hm
    obtain ⟨h10, h0⟩ := h t ht
    simp [Marker.Clean, Marker.line, START, START_END, h10, h0]
  | FAIL => exact ⟨by decide, by decide⟩
  | END => exact ⟨by decide, by decide⟩
  | FINISH => exact ⟨by decide, by decide⟩

theorem line_ne {line : Line} (h : 91 ∉ line.1) (m : Marker) : line.1 ≠ m.line := by
  intro he
  rw [he] at h
  cases m <;> exact h List.mem_cons_self

theorem splitLines_line {l : Bytes} (hl : 10 ∉ l) (rest : Bytes) : ∀ line : Line,
    ∃ line', line'.1 = line.1 ++ l ∧
      splitLines line (l ++ 10 :: rest) = line' :: splitLines ⟨[], List.not_mem_nil⟩ rest := by
  induction l with
  | nil => exact fun line => ⟨line, (List.append_nil _).symm, by simp [splitLines]⟩
  | cons c l ih =>
    intro line
    obtain ⟨hc, hl⟩ := not_or.mp (mt List.mem_cons.mpr hl)
    obtain ⟨line', heq, hsplit⟩ := ih hl ⟨line.1 ++ [c], by simp [line.2, hc]⟩
    refine ⟨line', by rw [heq, List.append_assoc]; rfl, ?_⟩
    rw [← hsplit, List.cons_append, splitLines, dif_neg (Ne.symm hc)]

/-- The checker finds the markers, and no others, wherever the log stands between them. -/
theorem markers_of_prints (hlog : ∀ c, .sputc c ∈ out → c ≠ 91) :
    ∀ {ms : List Marker} {line : Line}, 91 ∉ line.1 → (∀ m ∈ ms, m.Clean) →
      out.filter Output.isPrint = ms.map Marker.print →
      Markers (splitLines line (out.flatMap Output.bytes)) ms := by
  induction out with
  | nil =>
    intro ms line hline _ hms
    obtain rfl : ms = [] := List.map_eq_nil_iff.mp hms.symm
    exact .other (line_ne hline) .nil
  | cons o out ih =>
    intro ms line hline hclean hms
    have ih := @ih fun c hc => hlog c (List.mem_cons_of_mem _ hc)
    rw [List.flatMap_cons]
    cases o with
    | sputc c =>
      rw [Output.bytes, List.singleton_append, splitLines]
      split
      · exact .other (line_ne hline) (ih List.not_mem_nil hclean hms)
      · have hc := hlog c List.mem_cons_self
        exact ih (by simp [hline, Ne.symm hc]) hclean hms
    | printE9 str =>
      rw [List.filter_cons_of_pos rfl] at hms
      obtain ⟨m, ms, rfl, hm, hrest⟩ := List.map_eq_cons_iff.mp hms.symm
      obtain ⟨⟨h10, h0⟩, hclean⟩ := List.forall_mem_cons.mp hclean
      obtain rfl : 10 :: m.line ++ [10] = str := Output.printE9.inj hm
      have hall : Output.bytes (.printE9 (10 :: m.line ++ [10])) = 10 :: m.line ++ [10] := by
        refine List.takeWhile_eq_self_iff.mpr fun c hc => decide_eq_true ?_
        rintro rfl
        simp [h0] at hc
      -- the line that the log had begun ends here
      rw [hall, List.append_assoc, List.cons_append, splitLines, dif_pos rfl]
      refine .other (line_ne hline) ?_
      obtain ⟨line', heq, hsplit⟩ := splitLines_line h10 (out.flatMap Output.bytes)
        ⟨[], List.not_mem_nil⟩
      rw [List.singleton_append, hsplit]
      exact .marker heq (ih List.not_mem_nil hclean hrest.symm)

/-- The last marker comes last only. -/
theorem log_prefix_eq {tests' : List Test} (h : log tests' <+: log tests) :
    log tests' = log tests := by
  refine (List.prefix_concat_iff.mp h).resolve_right fun h => ?_
  have hmem : Marker.FINISH ∈ tests.flatMap Test.markers := h.mem (by simp [log])
  simp [Test.markers, List.mem_replicate] at hmem

/-- **The tests pass for the checker if the emulator succeeded, all of them were run and none
failed**, and only then: the kernel may stop at any point, and log whatever has no bracket in it. -/
theorem tests_pass_iff (returncode : Int) (tests : List Test) (hlog : ∀ c, .sputc c ∈ out → c ≠ 91)
    (hnames : ∀ t ∈ tests, 10 ∉ t.name ∧ 0 ∉ t.name) (hnodup : (tests.map Test.name).Nodup)
    (hout : out.filter Output.isPrint <+: waitEnd tests) :
    exitStatus returncode out = 0 ↔ returncode = 0 ∧
      out.filter Output.isPrint = waitEnd tests ∧ ∀ t ∈ tests, t.fails = 0 := by
  by_cases hcode : returncode = 0
  swap
  · simp [exitStatus, hcode]
  rw [and_iff_right hcode]
  rw [waitEnd_eq] at hout ⊢
  obtain ⟨ms, hpre, hms⟩ := List.prefix_map_iff.mp hout
  have hmarkers : Markers (splitLines ⟨[], List.not_mem_nil⟩ (out.flatMap Output.bytes)) ms :=
    markers_of_prints hlog List.not_mem_nil (fun m hm => clean_of_mem_log hnames (hpre.mem hm)) hms
  obtain ⟨hfinish, hfailed, -⟩ := LogProcessor.feed_log (p := .init) ⟨rfl, rfl⟩ hnodup
    fun t _ => ⟨List.not_mem_nil, List.not_mem_nil⟩
  rw [exitStatus, if_neg (not_not_intro hcode), LogProcessor.run, LogProcessor.feed_process hmarkers]
  by_cases hall : ms = log tests
  · subst hall
    rw [if_neg (not_not_intro hfinish.2), if_neg (not_not_intro hfinish), hfailed, and_iff_right hms]
    simp [LogProcessor.init]
  · refine iff_of_false (fun h => ?_) fun h => hall ?_
    · -- a processor that is finished has seen the last marker
      have hnot : ¬ (LogProcessor.feed LogProcessor.step .init ms).is_finished := fun hfin => by
        obtain ⟨tests', rfl, -⟩ := LogProcessor.expects_of_is_finished (p := .init) rfl hfin
        exact hall (log_prefix_eq hpre)
      simp [hnot] at h
    · refine hpre.eq_of_length ?_
      have hlen := congrArg List.length (hms.symm.trans h.1)
      rwa [List.length_map, List.length_map] at hlen

/-- A test that passes, while the log writes the start of a line. -/
theorem tests_pass_iff_logging :
    exitStatus 0 (.sputc 49 :: .sputc 58 :: waitEnd [⟨[116], 0⟩]) = 0 :=
  (tests_pass_iff 0 [⟨[116], 0⟩]
    (by simp +contextual [waitEnd, runTest, finish, Marker.print]) (by decide) (by decide)
    (by decide)).mpr ⟨rfl, by decide, by decide⟩

end Flix.Testex

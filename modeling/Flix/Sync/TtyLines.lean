import Flix.Sync.TtyInput
import Mathlib.Data.List.DropRight

/-!
# The lines of the terminal

Readers of the terminal are notified at the end of a line, and a backspace corrects
what is being typed: the input is meant to be edited line by line. But there is one
queue for the lines that are complete and for the one that is not, and nothing in it
tells where the one begins. A reader looks only whether the queue is empty, and so it
takes what has been typed of a line when it comes at that moment. A backspace takes
whatever is last, and so it takes the end of the line before when nothing has been typed
since.

`edited` is what the keys come to, line by line. As long as no reader goes beyond the
last end of a line and no backspace comes right after one, the queue is what is left of
the complete lines followed by the line that is not.
-/

namespace Flix.Sync.TtyInput

open Function Runs

/-! ## Lines -/

/-- The lines that are complete, one after the other, and the one that is not. -/
structure Edited where
  complete : List UInt8
  current : List UInt8

/-- What is typed changes the line that is not complete. -/
def Edited.next (e : Edited) : Event → Edited
  | .fed data =>
    if data = BACKSPACE then { e with current := e.current.dropLast }
    else if data = NEWLINE then ⟨e.complete ++ (e.current ++ [NEWLINE]), []⟩
    else { e with current := e.current ++ [data] }
  | .read _ _ _ => e

def edited (h : List Event) : Edited := h.foldl Edited.next ⟨[], []⟩

/-- Input by lines, of which some have been read and none is lost. -/
structure LineEdited (s : Tty) : Prop where
  /-- What was read is of complete lines. -/
  complete : delivered s.history <+: (edited s.history).complete
  /-- What was not is still there. -/
  kept : (edited s.history).complete <+: delivered s.history ++ s.stdin

/-- The queue up to the last end of a line. -/
def lines (q : List UInt8) : List UInt8 := q.rdropWhile (· ≠ NEWLINE)

/-- How much is asked for by who has the mutex. -/
def asked (s : Tty) : Action → Option Nat
  | .feedInput _ => none
  | .readInto _ size => some size
  | .wake t =>
    match s.place t with
    | .outside => none
    | .waiting size => some size

/-- What keeps to lines: a backspace that is not right behind the end of one, and a read of no
more than what is complete. -/
structure ByLines (s : Tty) (a : Action) : Prop where
  backspace : a = .feedInput BACKSPACE → s.stdin.getLast? ≠ some NEWLINE
  read : ∀ size, asked s a = some size → min size s.stdin.length ≤ (lines s.stdin).length

instance (s : Tty) : (a : Action) → Decidable (ByLines s a)
  | .feedInput data =>
    decidable_of_iff (data = BACKSPACE → s.stdin.getLast? ≠ some NEWLINE)
      ⟨fun h => ⟨fun heq => h (Action.feedInput.inj heq), nofun⟩,
        fun h hd => h.backspace (congrArg Action.feedInput hd)⟩
  | .readInto t size =>
    decidable_of_iff (∀ n ∈ asked s (.readInto t size), min n s.stdin.length ≤ (lines s.stdin).length)
      ⟨fun h => ⟨nofun, h⟩, fun h => h.read⟩
  | .wake t =>
    decidable_of_iff (∀ n ∈ asked s (.wake t), min n s.stdin.length ≤ (lines s.stdin).length)
      ⟨fun h => ⟨nofun, h⟩, fun h => h.read⟩

/-! ## What a step does to the queue -/

/-- The queue after a key. -/
def typed (q : List UInt8) (data : UInt8) : List UInt8 :=
  if data = BACKSPACE then q.dropLast else q ++ [data]

section

variable {s s' : Tty} {a : Action} {t : Tid} {size : Nat}

theorem feedInput_queue {data : UInt8} (h : feedInput s data = some s') :
    s'.history = s.history ++ [.fed data] ∧ s'.stdin = typed s.stdin data := by
  simp only [feedInput] at h
  unfold typed
  split at h
  · rw [if_pos ‹_›]
    split at h
    · cases h
      exact ⟨rfl, rfl⟩
    · rename_i hq
      cases h
      have hnil : s.stdin = [] := Decidable.of_not_not hq
      exact ⟨rfl, by rw [hnil]; rfl⟩
  · rw [if_neg ‹_›]
    split at h
    · obtain ⟨ws, -, h⟩ := of_bind h
      cases h
      exact ⟨rfl, rfl⟩
    · cases h
      exact ⟨rfl, rfl⟩

theorem readLoop_queue (h : readLoop s t size = some s') :
    (s.stdin = [] ∧ s'.history = s.history ∧ s'.stdin = s.stdin) ∨
    s'.history = s.history ++ [.read t size (s.stdin.take (min size s.stdin.length))] ∧
      s'.stdin = s.stdin.drop (min size s.stdin.length) := by
  unfold readLoop at h
  split at h
  · rename_i hq
    obtain ⟨-, h⟩ := of_assert h
    cases h
    exact .inl ⟨hq, rfl, rfl⟩
  · cases h
    exact .inr ⟨by rw [deliver, copyOut_eq], by rw [deliver, copyOut_eq]⟩

/-- A key is typed, a reader waits, or a reader takes from the front. -/
theorem step_queue (h : step s a = some s') :
    (∃ data, a = .feedInput data ∧ s'.history = s.history ++ [.fed data] ∧
      s'.stdin = typed s.stdin data) ∨
    (∃ size, asked s a = some size) ∧ (∀ data, a ≠ .feedInput data) ∧
      s.stdin = [] ∧ s'.history = s.history ∧ s'.stdin = s.stdin ∨
    ∃ t size, asked s a = some size ∧ (∀ data, a ≠ .feedInput data) ∧
      s'.history = s.history ++ [.read t size (s.stdin.take (min size s.stdin.length))] ∧
      s'.stdin = s.stdin.drop (min size s.stdin.length) := by
  cases a with
  | feedInput data => exact .inl ⟨data, rfl, feedInput_queue h⟩
  | readInto t size =>
    obtain ⟨-, h⟩ := of_assert h
    split at h
    · rename_i hsize
      cases h
      refine .inr (.inr ⟨t, size, rfl, by simp, ?_, ?_⟩)
      · rw [hsize]
        rfl
      · rw [hsize]
        rfl
    · rcases readLoop_queue h with hwait | hread
      · exact .inr (.inl ⟨⟨size, rfl⟩, by simp, hwait⟩)
      · exact .inr (.inr ⟨t, size, rfl, by simp, hread⟩)
  | wake t =>
    rw [step] at h
    split at h
    · cases h
    · rename_i size hplace
      have hasked : asked s (.wake t) = some size := by rw [asked, hplace]
      obtain ⟨-, h⟩ := of_assert h
      rcases readLoop_queue h with hwait | hread
      · exact .inr (.inl ⟨⟨size, hasked⟩, by simp, hwait⟩)
      · exact .inr (.inr ⟨t, size, hasked, by simp, hread⟩)

/-! ## The queue by lines -/

/-- Empty, or the end of a line. -/
def Ended (l : List UInt8) : Prop := l = [] ∨ l.getLast? = some NEWLINE

/-- The queue is what is left of the complete lines, and the line that is not. -/
structure Queue (s : Tty) (rest : List UInt8) : Prop where
  complete : (edited s.history).complete = delivered s.history ++ rest
  queue : s.stdin = rest ++ (edited s.history).current
  current : NEWLINE ∉ (edited s.history).current
  ended : Ended rest

theorem edited_snoc (h : List Event) (e : Event) : edited (h ++ [e]) = (edited h).next e := by
  rw [edited, List.foldl_append]
  rfl

theorem lines_append {rest cur : List UInt8} (hr : Ended rest) (hc : NEWLINE ∉ cur) :
    lines (rest ++ cur) = rest := by
  induction cur using List.reverseRecOn with
  | nil =>
    rw [append_nil]
    obtain rfl | hlast := hr
    · rfl
    · obtain ⟨l, rfl⟩ := List.getLast?_eq_some_iff.mp hlast
      exact List.rdropWhile_concat_neg _ _ _ (by simp)
  | append_singleton cur c ih =>
    have hne : c ≠ NEWLINE := fun h => hc (by simp [h])
    rw [← append_assoc, lines, List.rdropWhile_concat_pos _ _ _ (by simpa using hne)]
    exact ih fun h => hc (mem_append_left _ h)

theorem Ended.drop {l : List UInt8} (h : Ended l) (n : Nat) : Ended (l.drop n) := by
  rcases Nat.lt_or_ge n l.length with hlt | hle
  · refine .inr ?_
    have hne : l ≠ [] := List.length_pos_iff.mp (Nat.zero_lt_of_lt hlt)
    rw [List.getLast?_drop, if_neg (Nat.not_le.mpr hlt)]
    exact h.resolve_left hne
  · exact .inl (List.drop_eq_nil_of_le hle)

variable {rest : List UInt8}

theorem Queue.lineEdited (h : Queue s rest) : LineEdited s := by
  constructor
  · rw [h.complete]
    exact List.prefix_append _ _
  · rw [h.complete, h.queue, ← append_assoc]
    exact List.prefix_append _ _

theorem Queue.feed (h : Queue s rest) {data : UInt8} (hd : data ≠ BACKSPACE)
    (hh : s'.history = s.history ++ [.fed data]) (hq : s'.stdin = typed s.stdin data) :
    ∃ rest', Queue s' rest' := by
  rw [typed, if_neg hd, h.queue] at hq
  have hdel : delivered s'.history = delivered s.history := by rw [hh, delivered_snoc_fed]
  have hed : edited s'.history = (edited s.history).next (.fed data) := by rw [hh, edited_snoc]
  rw [Edited.next, if_neg hd] at hed
  by_cases hn : data = NEWLINE
  · -- the line is complete
    rw [if_pos hn] at hed
    refine ⟨rest ++ ((edited s.history).current ++ [NEWLINE]), ?_, ?_, ?_, .inr ?_⟩
    · rw [hed, hdel, h.complete, append_assoc]
    · rw [hq, hed, hn, append_nil, append_assoc]
    · rw [hed]
      exact not_mem_nil
    · rw [← append_assoc, List.getLast?_concat]
  · rw [if_neg hn] at hed
    refine ⟨rest, ?_, ?_, ?_, h.ended⟩
    · rw [hed, hdel, h.complete]
    · rw [hq, hed, append_assoc]
    · rw [hed, mem_append, mem_singleton]
      exact not_or.mpr ⟨h.current, Ne.symm hn⟩

/-- A backspace that is not right behind the end of a line takes from the line that is not
complete, or there is nothing to take. -/
theorem Queue.backspace (h : Queue s rest) (hlast : s.stdin.getLast? ≠ some NEWLINE)
    (hh : s'.history = s.history ++ [.fed BACKSPACE]) (hq : s'.stdin = typed s.stdin BACKSPACE) :
    Queue s' rest := by
  rw [h.queue] at hq
  have hdel : delivered s'.history = delivered s.history := by rw [hh, delivered_snoc_fed]
  have hed : edited s'.history = { edited s.history with
      current := (edited s.history).current.dropLast } := by
    rw [hh, edited_snoc, Edited.next, if_pos rfl]
  refine ⟨?_, ?_, ?_, h.ended⟩
  · rw [hed, hdel, h.complete]
  · rw [hq, hed]
    by_cases hc : (edited s.history).current = []
    · have hrest : rest = [] := by
        refine h.ended.resolve_right fun hr => hlast ?_
        rw [h.queue, hc, append_nil, hr]
      rw [hrest]
      rfl
    · exact List.dropLast_append_of_ne_nil hc
  · rw [hed]
    exact fun hm => h.current ((List.dropLast_sublist _).subset hm)

theorem Queue.not_lineEdited_backspace (h : Queue s rest) (hlast : s.stdin.getLast? = some NEWLINE)
    (hh : s'.history = s.history ++ [.fed BACKSPACE]) (hq : s'.stdin = typed s.stdin BACKSPACE) :
    ¬ LineEdited s' := by
  intro hl
  have hpos : s.stdin ≠ [] := fun hnil => by rw [hnil] at hlast; cases hlast
  have hcur : (edited s.history).current = [] := by
    by_contra hne
    rw [h.queue, List.getLast?_append_of_ne_nil _ hne] at hlast
    exact h.current (List.mem_of_getLast? hlast)
  have hkept := hl.kept.length_le
  rw [hq, hh, delivered_snoc_fed, edited_snoc, Edited.next, if_pos rfl, typed, if_pos rfl,
    h.complete, length_append, length_append, List.length_dropLast, h.queue, hcur,
    append_nil] at hkept
  rw [h.queue, hcur, append_nil] at hpos
  have := List.length_pos_iff.mpr hpos
  omega

theorem Queue.read (h : Queue s rest) {n : Nat} (hn : n ≤ rest.length)
    (hh : s'.history = s.history ++ [.read t size (s.stdin.take n)])
    (hq : s'.stdin = s.stdin.drop n) : Queue s' (rest.drop n) := by
  have hed : edited s'.history = edited s.history := by rw [hh, edited_snoc, Edited.next]
  refine ⟨?_, ?_, ?_, h.ended.drop n⟩
  · rw [hed, hh, delivered_snoc_read, h.complete, h.queue, List.take_append_of_le_length hn,
      append_assoc, List.take_append_drop]
  · rw [hed, hq, h.queue, List.drop_append_of_le_length hn]
  · rw [hed]
    exact h.current

theorem Queue.not_lineEdited_read (h : Queue s rest) {n : Nat} (hn : rest.length < n)
    (hle : n ≤ s.stdin.length) (hh : s'.history = s.history ++ [.read t size (s.stdin.take n)]) :
    ¬ LineEdited s' := by
  intro hl
  have hlen := hl.complete.length_le
  rw [hh, delivered_snoc_read, edited_snoc, Edited.next, h.complete, length_append,
    length_append, List.length_take] at hlen
  omega

/-- One step. -/
theorem Queue.step (h : Queue s rest) (hs : TtyInput.step s a = some s') :
    (ByLines s a → ∃ rest', Queue s' rest') ∧ (LineEdited s' → ByLines s a) := by
  have hlines : lines s.stdin = rest := by rw [h.queue, lines_append h.ended h.current]
  obtain ⟨data, rfl, hh, hq⟩ | ⟨⟨size, ha⟩, hne, hnil, hh, hq⟩ | ⟨t, size, ha, hne, hh, hq⟩ :=
    step_queue hs
  · by_cases hd : data = BACKSPACE
    · subst hd
      refine ⟨fun hok => ⟨rest, h.backspace (hok.backspace rfl) hh hq⟩,
        fun hl => ⟨fun _ hlast => ?_, nofun⟩⟩
      exact h.not_lineEdited_backspace hlast hh hq hl
    · refine ⟨fun _ => h.feed hd hh hq, fun _ => ⟨fun heq => ?_, nofun⟩⟩
      exact absurd (Action.feedInput.inj heq) hd
  · refine ⟨fun _ => ⟨rest, ?_⟩, fun _ => ⟨fun heq => absurd heq (hne _), fun n _ => ?_⟩⟩
    · exact ⟨by rw [hh]; exact h.complete, by rw [hq, hh]; exact h.queue,
        by rw [hh]; exact h.current, h.ended⟩
    · rw [hnil, List.length_nil, Nat.min_zero]
      exact Nat.zero_le _
  · constructor
    · intro hok
      have hle := hok.read size ha
      rw [hlines] at hle
      exact ⟨_, h.read hle hh hq⟩
    · refine fun hl => ⟨fun heq => absurd heq (hne _), fun n hn => ?_⟩
      obtain rfl := mem_unique ha hn
      rw [hlines]
      by_contra hlt
      exact h.not_lineEdited_read (Nat.not_le.mp hlt) (Nat.min_le_right _ _) hh hl

end

/-- **The terminal edits lines** as long as the steps keep to them, and not any longer. -/
theorem line_edited_iff_byLines {tasks : List Tid} {garbage : Nat} {s : Tty}
    (hs : Reach step ByLines (start tasks garbage) s) :
    LineEdited s ∧ ∀ a s', step s a = some s' → (LineEdited s' ↔ ByLines s a) := by
  obtain ⟨rest, hq⟩ : ∃ rest, Queue s rest := by
    refine hs.invariant (I := fun s => ∃ rest, Queue s rest) ⟨[], rfl, rfl, not_mem_nil, .inl rfl⟩
      fun s a s' hq hok h => ?_
    obtain ⟨rest, hq⟩ := hq
    exact (hq.step h).1 hok
  refine ⟨hq.lineEdited, fun a s' h => ⟨(hq.step h).2, fun hok => ?_⟩⟩
  obtain ⟨rest', hq'⟩ := (hq.step h).1 hok
  exact hq'.lineEdited

/-- A reader waits for a line, which is typed with a correction, and gets it. -/
theorem line_edited_iff_byLines_lineRun : ∃ s,
    guardedRun step ByLines (start [1, 2] 0) [.readInto 1 5, .feedInput 97, .feedInput 98,
      .feedInput BACKSPACE, .feedInput NEWLINE, .wake 1] = some s ∧
    delivered s.history = [97, NEWLINE] ∧ LineEdited s := by
  have hrun : (guardedRun step ByLines (start [1, 2] 0) [.readInto 1 5, .feedInput 97,
      .feedInput 98, .feedInput BACKSPACE, .feedInput NEWLINE, .wake 1]).map
        (fun s => delivered s.history) = some [97, NEWLINE] := by decide
  obtain ⟨s, hs, hd⟩ := map_eq_some_iff.mp hrun
  exact ⟨s, hs, hd, (line_edited_iff_byLines (Reach.of_guardedRun hs)).1⟩

/-- A reader that comes when half of a line has been typed. -/
theorem half_line_read : ¬ ∀ tasks garbage s,
    Reach step (fun _ _ => True) (start tasks garbage) s → LineEdited s := by
  intro h
  have hrun : (run step (start [1] 0) [.feedInput 97, .readInto 1 5]).map
      (fun s => (delivered s.history, (edited s.history).complete)) = some ([97], []) := by decide
  obtain ⟨s, hs, hd⟩ := map_eq_some_iff.mp hrun
  obtain ⟨hd, hc⟩ := Prod.mk.inj hd
  have hl := (h [1] 0 s (Reach.of_run (fun _ _ _ => trivial) hs)).complete
  rw [hd, hc] at hl
  exact absurd hl (by decide)

end Flix.Sync.TtyInput

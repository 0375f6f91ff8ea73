import Flix.Lib.Runs
import Mathlib.Logic.Function.Basic

/-!
# The text screen

`Screen.cpp`. The screen is a buffer of 25 rows of 80 cells, of which the first 24 are
written to; the last one is there to be scrolled in. The cursor is a pair of integers
that every character moves, and a character that moves it below row 23 scrolls.

The test for that is whether the row *is* 24, and not whether it is beyond: it is the
bounds of the cursor before the character, and that no character goes down by more
than one row, that make it enough.

`touched` is a record of all accesses to the buffer, for the sake of what is to be
said about them; no function reads it.

To scroll is a `std::memcpy` of 24 rows to one row before them, so that the two areas
overlap. It is taken to copy from the first cell on, and what is said about scrolled
rows rests on this order.
-/

namespace Flix.Console

/-! ## The model -/

/-- `Screen::Color`. -/
inductive Color where
  | Black
  | Blue
  | Green
  | Cyan
  | Red
  | Magenta
  | Brown
  | LightGrey
  | DarkGrey
  | LightBlue
  | LightGreen
  | LightCyan
  | LightRed
  | LightMagenta
  | LightBrown
  | White
  deriving DecidableEq

/-- The number of an enumerator. -/
def Color.toNat : Color → Nat
  | .Black => 0
  | .Blue => 1
  | .Green => 2
  | .Cyan => 3
  | .Red => 4
  | .Magenta => 5
  | .Brown => 6
  | .LightGrey => 7
  | .DarkGrey => 8
  | .LightBlue => 9
  | .LightGreen => 10
  | .LightCyan => 11
  | .LightRed => 12
  | .LightMagenta => 13
  | .LightBrown => 14
  | .White => 15

/-- `Screen::Position`. -/
structure Position where
  x : Int
  y : Int
  deriving DecidableEq

/-- An access to the buffer, in cells. -/
inductive Access where
  /-- The write of one cell in `putChar`. -/
  | put (index : Int)
  | read (first : Int) (n : Nat)
  | write (first : Int) (n : Nat)
  deriving DecidableEq

structure Screen where
  cells : Int → BitVec 16
  cursor : Position
  /-- All accesses, the last one first. -/
  touched : List Access

/-- A character as it is put: the byte, `fg` and `bg`. -/
structure Glyph where
  byte : UInt8
  fg : Color := .LightGrey
  bg : Color := .Black
  deriving DecidableEq

/-- The value of a cell. The character is a signed `char`, and is promoted to `int`. -/
def cellValue (c : UInt8) (fg bg : Color) : BitVec 16 :=
  (c.toBitVec.signExtend 32 ||| BitVec.ofNat 32 fg.toNat <<< 8
    ||| BitVec.ofNat 32 bg.toNat <<< 12).setWidth 16

/-- `std::memcpy` of `n` cells, from the first one on. -/
def memcpy (cells : Int → BitVec 16) (dst src : Int) : Nat → Int → BitVec 16
  | 0 => cells
  | n + 1 => memcpy (Function.update cells dst (cells src)) (dst + 1) (src + 1) n

/-- `std::memset` of `n` cells to zero. -/
def memset (cells : Int → BitVec 16) (dst : Int) (n : Nat) : Int → BitVec 16 :=
  fun i => if dst ≤ i ∧ i < dst + n then 0 else cells i

namespace Screen

/-- `Screen::clear`. -/
def clear (s : Screen) : Screen where
  cells := memset s.cells 0 (80 * 25)
  cursor := ⟨0, 0⟩
  touched := .write 0 (80 * 25) :: s.touched

/-- `Screen::scrollOneLine`. -/
def scrollOneLine (s : Screen) : Screen where
  cells := memset (memcpy s.cells 0 80 (80 * 24)) (24 * 80) 80
  cursor := s.cursor
  touched := .write (24 * 80) 80 :: .write 0 (80 * 24) :: .read 80 (80 * 24) :: s.touched

/-- `Screen::putChar` at a position. -/
def putCharAt (s : Screen) (pos : Position) (c : UInt8) (fg bg : Color) : Option Screen := do
  assert (pos.x < 80 ∧ pos.x ≥ 0)
  assert (pos.y < 24 ∧ pos.y ≥ 0)
  let index := pos.y * 80 + pos.x
  some { s with
    cells := Function.update s.cells index (cellValue c fg bg)
    touched := .put index :: s.touched }

/-- The `switch` of `Screen::putChar`. -/
def move (s : Screen) (c : UInt8) (fg bg : Color) : Option Screen :=
  -- '\n'
  if c = 10 then some { s with cursor := ⟨0, s.cursor.y + 1⟩ }
  -- '\r'
  else if c = 13 then some { s with cursor := ⟨0, s.cursor.y⟩ }
  -- '\b'
  else if c = 8 then
    let cursor := if s.cursor.x ≠ 0 then ⟨s.cursor.x - 1, s.cursor.y⟩ else s.cursor
    putCharAt { s with cursor := cursor } cursor 0 fg bg
  -- '\t'
  else if c = 9 then
    let x := s.cursor.x + (8 - s.cursor.x.tmod 8)
    some { s with cursor := if x ≥ 80 then ⟨0, s.cursor.y + 1⟩ else ⟨x, s.cursor.y⟩ }
  else do
    let s ← s.putCharAt s.cursor c fg bg
    let x := s.cursor.x + 1
    some { s with cursor := if x = 80 then ⟨0, s.cursor.y + 1⟩ else ⟨x, s.cursor.y⟩ }

/-- What `Screen::putChar` does once the cursor has moved. -/
def settle (s : Screen) : Option Screen := do
  let s := if s.cursor.y = 24
    then { s.scrollOneLine with cursor := ⟨s.cursor.x, s.cursor.y - 1⟩ } else s
  assert (s.cursor.x < 80 ∧ s.cursor.x ≥ 0)
  assert (s.cursor.y < 24 ∧ s.cursor.y ≥ 0)
  some s

/-- `Screen::putChar`. -/
def putChar (s : Screen) (g : Glyph) : Option Screen := do
  let s ← s.move g.byte g.fg g.bg
  s.settle

/-- `putChar` for one character after the other. -/
def putAll (s : Screen) (l : List Glyph) : Option Screen := l.foldlM putChar s

end Screen

/-- The two forms of `putString`. -/
inductive Call where
  /-- With the size. -/
  | sized (str : List UInt8) (fg bg : Color)
  /-- Up to the first zero. -/
  | terminated (str : List UInt8) (fg bg : Color)

/-- The characters of a call. -/
def Call.glyphs : Call → List Glyph
  | .sized str fg bg => str.map (⟨·, fg, bg⟩)
  | .terminated str fg bg => (str.takeWhile (· ≠ 0)).map (⟨·, fg, bg⟩)

/-- `Screen::putString`. -/
def Screen.putString (s : Screen) (call : Call) : Option Screen := s.putAll call.glyphs

/-! ## The bounds -/

/-- The cursor is in the rows that are written to. -/
def Position.Valid (p : Position) : Prop := 0 ≤ p.x ∧ p.x < 80 ∧ 0 ≤ p.y ∧ p.y < 24

/-- Where the cursor may be between its move and the scrolling. -/
def Position.Moved (p : Position) : Prop := 0 ≤ p.x ∧ p.x < 80 ∧ 0 ≤ p.y ∧ p.y ≤ 24

theorem Position.Valid.down {p : Position} (h : p.Valid) : Position.Moved ⟨0, p.y + 1⟩ := by
  unfold Position.Valid at h
  unfold Position.Moved
  simp only
  omega

theorem Position.Valid.along {p : Position} (h : p.Valid) {x : Int} (h0 : 0 ≤ x) (hx : x < 80) :
    Position.Moved ⟨x, p.y⟩ := by
  unfold Position.Valid at h
  unfold Position.Moved
  simp only
  omega

/-- Where an access may be. -/
def Access.Inside : Access → Prop
  | .put index => 0 ≤ index ∧ index < 80 * 24
  | .read first n => 0 ≤ first ∧ first + n ≤ 80 * 25
  | .write first n => 0 ≤ first ∧ first + n ≤ 80 * 25

/-- `s'` is `s` after accesses that are all inside the buffer. -/
def Screen.Behaves (s s' : Screen) : Prop :=
  ∃ accesses, s'.touched = accesses ++ s.touched ∧ ∀ a ∈ accesses, a.Inside

namespace Screen

variable {s s' s₁ : Screen} {c : UInt8} {fg bg : Color} {pos : Position}

theorem Behaves.refl (s : Screen) : s.Behaves s := ⟨[], rfl, fun a ha => by simp at ha⟩

theorem Behaves.trans (h : s.Behaves s₁) (h' : s₁.Behaves s') : s.Behaves s' := by
  obtain ⟨l, heq, hl⟩ := h
  obtain ⟨l', heq', hl'⟩ := h'
  refine ⟨l' ++ l, by rw [heq', heq, append_assoc], fun a ha => ?_⟩
  exact (mem_append.mp ha).elim (hl' a) (hl a)

/-- At a valid position a character is put, and nothing else happens. -/
theorem putCharAt_eq (h : pos.Valid) : s.putCharAt pos c fg bg = some { s with
    cells := Function.update s.cells (pos.y * 80 + pos.x) (cellValue c fg bg)
    touched := .put (pos.y * 80 + pos.x) :: s.touched } := by
  unfold Position.Valid at h
  unfold putCharAt
  rw [assert_pos (by omega), assert_pos (by omega)]
  rfl

theorem Behaves.put (h : pos.Valid) {cells : Int → BitVec 16} {cursor : Position} :
    s.Behaves ⟨cells, cursor, .put (pos.y * 80 + pos.x) :: s.touched⟩ := by
  refine ⟨[.put (pos.y * 80 + pos.x)], rfl, fun a ha => ?_⟩
  obtain rfl := mem_singleton.mp ha
  unfold Position.Valid at h
  unfold Access.Inside
  omega

/-- Every kind of character goes down by one row at most. -/
theorem move_bounds (h : s.cursor.Valid) :
    ∃ s', s.move c fg bg = some s' ∧ s'.cursor.Moved ∧ s.Behaves s' := by
  obtain ⟨hx0, hx, -⟩ := id h
  unfold move
  split
  · exact ⟨_, rfl, h.down, Behaves.refl s⟩
  split
  · exact ⟨_, rfl, h.along (by decide) (by decide), Behaves.refl s⟩
  split
  · have hpos : (if s.cursor.x ≠ 0 then ⟨s.cursor.x - 1, s.cursor.y⟩ else s.cursor
        : Position).Valid := by
      split
      · exact ⟨by simp only; omega, by simp only; omega, h.2.2⟩
      · exact h
    exact ⟨_, putCharAt_eq hpos, hpos.along hpos.1 hpos.2.1, Behaves.put hpos⟩
  split
  · have hmod : s.cursor.x.tmod 8 = s.cursor.x % 8 := Int.tmod_eq_emod_of_nonneg hx0
    refine ⟨_, rfl, ?_, Behaves.refl s⟩
    split
    · exact h.down
    · exact h.along (by omega) (by omega)
  · rw [putCharAt_eq h]
    refine ⟨_, rfl, ?_, Behaves.put h⟩
    dsimp only
    split
    · exact h.down
    · exact h.along (by omega) (by omega)

theorem Behaves.scrollOneLine {cursor : Position} :
    s.Behaves { s.scrollOneLine with cursor := cursor } := by
  refine ⟨[.write (24 * 80) 80, .write 0 (80 * 24), .read 80 (80 * 24)], rfl, fun a ha => ?_⟩
  simp only [mem_cons, not_mem_nil, or_false] at ha
  obtain rfl | rfl | rfl := ha
  all_goals unfold Access.Inside; decide

theorem settle_eq_of_lt (h : s.cursor.Valid) : s.settle = some s := by
  obtain ⟨hx0, hx, hy0, hy⟩ := h
  unfold settle
  simp only [if_neg (by omega : ¬ s.cursor.y = 24)]
  rw [assert_pos ⟨hx, hx0⟩, assert_pos ⟨hy, hy0⟩]
  rfl

theorem settle_eq_of_eq (h : s.cursor.Moved) (hy : s.cursor.y = 24) :
    s.settle = some { s.scrollOneLine with cursor := ⟨s.cursor.x, 23⟩ } := by
  obtain ⟨hx0, hx, -⟩ := h
  unfold settle
  simp only [hy]
  rw [assert_pos ⟨hx, hx0⟩]
  rfl

theorem settle_bounds (h : s.cursor.Moved) :
    ∃ s', s.settle = some s' ∧ s'.cursor.Valid ∧ s.Behaves s' := by
  obtain ⟨hx0, hx, hy0, hy⟩ := id h
  by_cases heq : s.cursor.y = 24
  · exact ⟨_, settle_eq_of_eq h heq, ⟨hx0, hx, (by decide : (0 : Int) ≤ 23), (by decide : (23 : Int) < 24)⟩,
      Behaves.scrollOneLine⟩
  · have hv : s.cursor.Valid := ⟨hx0, hx, hy0, by omega⟩
    exact ⟨s, settle_eq_of_lt hv, hv, Behaves.refl s⟩

theorem putChar_bounds {g : Glyph} (h : s.cursor.Valid) :
    ∃ s', s.putChar g = some s' ∧ s'.cursor.Valid ∧ s.Behaves s' := by
  obtain ⟨s₁, hmove, hmoved, hb⟩ : ∃ s₁, s.move g.byte g.fg g.bg = some s₁ ∧ s₁.cursor.Moved
      ∧ s.Behaves s₁ := move_bounds h
  obtain ⟨s', hsettle, hv, hb'⟩ := settle_bounds hmoved
  exact ⟨s', bind_eq_some_iff.mpr ⟨s₁, hmove, hsettle⟩, hv, hb.trans hb'⟩

/-- **The cursor stays on the screen**, for any characters: no assertion fails, and only the buffer
is touched. As this is for any list, it is so after each character of one. -/
theorem putAll_bounds : ∀ (l : List Glyph) {s : Screen}, s.cursor.Valid →
    ∃ s', s.putAll l = some s' ∧ s'.cursor.Valid ∧ s.Behaves s'
  | [], s, h => ⟨s, rfl, h, Behaves.refl s⟩
  | g :: l, s, h => by
    obtain ⟨s₁, hput, hv, hb⟩ := putChar_bounds (g := g) h
    obtain ⟨s', hall, hv', hb'⟩ := putAll_bounds l hv
    exact ⟨s', bind_eq_some_iff.mpr ⟨s₁, hput, hall⟩, hv', hb.trans hb'⟩

/-- From the last cell of all, a character that scrolls and a tab. -/
theorem putAll_bounds_corner : Position.Valid ⟨79, 23⟩ ∧
    ∃ s', putAll ⟨fun _ => 0, ⟨79, 23⟩, []⟩ [⟨65, .White, .Black⟩, ⟨9, .White, .Black⟩] = some s' ∧
      s'.cursor.Valid ∧ Behaves ⟨fun _ => 0, ⟨79, 23⟩, []⟩ s' := by
  have hv : Position.Valid ⟨79, 23⟩ := by unfold Position.Valid; decide
  exact ⟨hv, putAll_bounds _ hv⟩

end Screen

end Flix.Console

import Flix.Console.Screen
import Mathlib.Data.List.Induction

/-!
# The screen as a terminal

What a terminal of 80 columns is to show is a page without an end: every character
goes to its place on it, and of the page there are always the last 24 rows to be seen.
The page knows nothing of scrolling, and the screen knows nothing of what it has
scrolled away; `Shows` is what relates them, with the number of the row of the page
that is the first one on the screen.

The two differ in one thing only, which is how the value of a cell is made. So the page
is a function of that, and the screen is compared first with the page whose cells are
made as the screen makes them, which it shows after all characters whatsoever. What is
left is about two pages, and about one number: a `char` is signed, and when it is
extended to an `int` the bits above the low byte, where the colours are, are all set
for the characters from `0x80` on.
-/

namespace Flix.Console

/-! ## The page -/

/-- The page, and the place on it where the next character goes. -/
structure Page where
  /-- The cell in a row and a column. -/
  cell : Nat → Nat → BitVec 16
  x : Nat
  y : Nat

/-- The high byte of a cell. -/
def colours (fg bg : Color) : BitVec 8 :=
  BitVec.ofNat 8 fg.toNat ||| BitVec.ofNat 8 bg.toNat <<< 4

/-- What a cell is to hold. -/
def printed (c : UInt8) (fg bg : Color) : BitVec 16 := colours fg bg ++ c.toBitVec

namespace Page

def blank : Page := ⟨fun _ _ => 0, 0, 0⟩

/-- Write a cell of the row. -/
def write (p : Page) (x : Nat) (v : BitVec 16) : Page :=
  { p with cell := fun r k => if r = p.y ∧ k = x then v else p.cell r k }

/-- Go on to a column, or to the next row when there is no such column. -/
def goTo (p : Page) (x : Nat) : Page :=
  if x < 80 then { p with x := x } else ⟨p.cell, 0, p.y + 1⟩

/-- The effect of a character, with how the value of a cell is made. -/
def putWith (value : UInt8 → Color → Color → BitVec 16) (p : Page) (g : Glyph) : Page :=
  -- newline
  if g.byte = 10 then ⟨p.cell, 0, p.y + 1⟩
  -- carriage return
  else if g.byte = 13 then { p with x := 0 }
  -- backspace, which erases
  else if g.byte = 8 then { p.write (p.x - 1) (value 0 g.fg g.bg) with x := p.x - 1 }
  -- tab, to the next multiple of 8
  else if g.byte = 9 then p.goTo ((p.x / 8 + 1) * 8)
  else (p.write p.x (value g.byte g.fg g.bg)).goTo (p.x + 1)

/-- The page that the characters produce. -/
def ofGlyphs (l : List Glyph) : Page := l.foldl (putWith printed) blank

/-- The first of the last 24 rows. -/
def top (p : Page) : Nat := p.y - 23

end Page

/-- What the screen is to be: the last 24 rows of the page, and a blank row. -/
structure Screen.Matches (s : Screen) (p : Page) : Prop where
  rows : ∀ r < 24, ∀ k < 80, s.cells ((r : Nat) * 80 + (k : Nat)) = p.cell (p.top + r) k
  last : ∀ k < 80, s.cells (24 * 80 + (k : Nat)) = 0

/-! ## Scrolling -/

/-- Copying upwards, it does no harm that the ranges overlap. -/
theorem memcpy_apply : ∀ {n : Nat} {cells : Int → BitVec 16} {dst src i : Int}, dst ≤ src →
    memcpy cells dst src n i
      = if dst ≤ i ∧ i < dst + n then cells (i - dst + src) else cells i
  | 0, cells, dst, src, i, _ => by
    rw [if_neg (by omega)]
    rfl
  | n + 1, cells, dst, src, i, h => by
    rw [memcpy, memcpy_apply (by omega)]
    have hidx : i - (dst + 1) + (src + 1) = i - dst + src := by omega
    rw [hidx]
    by_cases hi : dst + 1 ≤ i ∧ i < dst + 1 + n
    · rw [if_pos hi, if_pos (by omega), Function.update_of_ne (by omega)]
    · rw [if_neg hi]
      by_cases heq : i = dst
      · rw [heq, Function.update_self, if_pos (by omega), Int.sub_self, Int.zero_add]
      · rw [Function.update_of_ne heq, if_neg (by omega)]

variable {s : Screen}

theorem Screen.scrollOneLine_cell {r k : Nat} (hr : r < 24) (hk : k < 80) :
    s.scrollOneLine.cells (r * 80 + k) = s.cells ((r + 1 : Nat) * 80 + k) := by
  show memset _ _ _ _ = _
  unfold memset
  rw [if_neg (by omega), memcpy_apply (by decide), if_pos (by omega)]
  congr 1
  omega

theorem Screen.scrollOneLine_last {k : Nat} (hk : k < 80) :
    s.scrollOneLine.cells (24 * 80 + k) = 0 := by
  show memset _ _ _ _ = _
  unfold memset
  rw [if_pos (by omega)]

/-! ## The screen shows the page -/

/-- The screen shows the page from row `t` on. -/
structure Screen.Shows (s : Screen) (p : Page) (t : Nat) : Prop where
  x : s.cursor.x = p.x
  y : s.cursor.y + t = p.y
  column : p.x < 80
  low : t ≤ p.y
  high : p.y ≤ t + 24
  rows : ∀ r < 24, ∀ k < 80, s.cells ((r : Nat) * 80 + (k : Nat)) = p.cell (t + r) k
  last : ∀ k < 80, s.cells (24 * 80 + (k : Nat)) = 0
  /-- Below what is shown the page is blank. -/
  below : ∀ r k, t + 24 ≤ r → p.cell r k = 0

namespace Screen.Shows

variable {s : Screen} {p : Page} {t : Nat} {x : Nat} {v : BitVec 16}

theorem valid (h : s.Shows p t) (hlt : p.y < t + 24) : s.cursor.Valid := by
  have hx := h.x
  have hy := h.y
  have hc := h.column
  have hl := h.low
  unfold Position.Valid
  omega

variable {cursor : Position}

theorem along (h : s.Shows p t) {x : Nat} (hx : x < 80)
    (hcx : cursor.x = x) (hcy : cursor.y = s.cursor.y) :
    Shows { s with cursor := cursor } { p with x := x } t :=
  ⟨hcx, by rw [hcy]; exact h.y, hx, h.low, h.high, h.rows, h.last, h.below⟩

theorem down (h : s.Shows p t) (hlt : p.y < t + 24)
    (hcx : cursor.x = 0) (hcy : cursor.y = s.cursor.y + 1) :
    Shows { s with cursor := cursor } ⟨p.cell, 0, p.y + 1⟩ t := by
  have hy := h.y
  refine ⟨hcx, ?_, (by decide : 0 < 80), Nat.le_succ_of_le h.low, hlt, h.rows, h.last, h.below⟩
  simp only [hcy]
  omega

theorem goTo (h : s.Shows p t) (hlt : p.y < t + 24) {x : Nat}
    (hc : cursor = if (x : Int) ≥ 80 then ⟨0, s.cursor.y + 1⟩ else ⟨x, s.cursor.y⟩) :
    Shows { s with cursor := cursor } (p.goTo x) t := by
  subst hc
  unfold Page.goTo
  by_cases hx : x < 80
  · rw [if_pos hx, if_neg (by omega)]
    exact h.along hx rfl rfl
  · rw [if_neg hx, if_pos (by omega)]
    exact h.down hlt rfl rfl

theorem write (h : s.Shows p t) (hlt : p.y < t + 24) (hx : x < 80) {l : List Access} :
    Shows ⟨Function.update s.cells (s.cursor.y * 80 + x) v, s.cursor, l⟩ (p.write x v) t := by
  have hy := h.y
  refine ⟨h.x, h.y, h.column, h.low, h.high, fun r hr k hk => ?_, fun k hk => ?_, ?_⟩
  · simp only [Page.write]
    by_cases heq : t + r = p.y ∧ k = x
    · rw [if_pos heq, show ((r : Int) * 80 + k) = s.cursor.y * 80 + x by omega, Function.update_self]
    · rw [if_neg heq, Function.update_of_ne (by omega)]
      exact h.rows r hr k hk
  · simp only
    rw [Function.update_of_ne (by omega)]
    exact h.last k hk
  · intro r k hr
    simp only [Page.write]
    rw [if_neg (by omega)]
    exact h.below r k hr

/-- One character, before any scrolling. -/
theorem move (h : s.Shows p t) (hlt : p.y < t + 24) (g : Glyph) :
    ∃ s', s.move g.byte g.fg g.bg = some s' ∧ s'.Shows (p.putWith cellValue g) t := by
  have hv := h.valid hlt
  have hx := h.x
  have hcol := h.column
  unfold Screen.move Page.putWith
  split
  · exact ⟨_, rfl, h.down hlt rfl rfl⟩
  split
  · exact ⟨_, rfl, h.along (by decide) rfl rfl⟩
  split
  · -- the cursor goes back, unless it is in the first column
    have hpos : (if s.cursor.x ≠ 0 then ⟨s.cursor.x - 1, s.cursor.y⟩ else s.cursor : Position)
        = ⟨(p.x - 1 : Nat), s.cursor.y⟩ := by
      split
      · rw [show s.cursor.x - 1 = (p.x - 1 : Nat) by omega]
      · rw [show ((p.x - 1 : Nat) : Int) = s.cursor.x by omega]
    have hv' : Position.Valid ⟨(p.x - 1 : Nat), s.cursor.y⟩ := by
      unfold Position.Valid at hv ⊢
      simp only
      omega
    simp only [hpos]
    refine ⟨_, Screen.putCharAt_eq hv', ?_⟩
    have h' : Shows { s with cursor := ⟨(p.x - 1 : Nat), s.cursor.y⟩ } { p with x := p.x - 1 } t :=
      h.along (by omega) rfl rfl
    exact h'.write hlt (by omega)
  split
  · refine ⟨_, rfl, h.goTo hlt ?_⟩
    have hmod : s.cursor.x.tmod 8 = s.cursor.x % 8 := Int.tmod_eq_emod_of_nonneg hv.1
    rw [show s.cursor.x + (8 - s.cursor.x.tmod 8) = ((p.x / 8 + 1) * 8 : Nat) by omega]
  · rw [Screen.putCharAt_eq hv]
    refine ⟨_, rfl, ?_⟩
    have hw := h.write hlt hcol (v := cellValue g.byte g.fg g.bg)
      (l := .put (s.cursor.y * 80 + s.cursor.x) :: s.touched)
    rw [← hx] at hw
    refine hw.goTo hlt ?_
    simp only [hx]
    by_cases h80 : p.x + 1 = 80
    · rw [if_pos (by omega), if_pos (by omega)]
    · rw [if_neg (by omega), if_neg (by omega)]
      rfl

/-- Scrolling shows the page from one row further on. -/
theorem scroll (h : s.Shows p t) (hy : p.y = t + 24) :
    Shows { s.scrollOneLine with cursor := ⟨s.cursor.x, 23⟩ } p (t + 1) := by
  refine ⟨h.x, ?_, h.column, by omega, by omega, fun r hr k hk => ?_, fun k hk => ?_,
    fun r k hr => h.below r k (by omega)⟩
  · show (23 : Int) + (t + 1 : Nat) = p.y
    omega
  · refine (Screen.scrollOneLine_cell hr hk).trans ?_
    by_cases hr' : r + 1 < 24
    · rw [h.rows (r + 1) hr' k hk, Nat.add_right_comm, Nat.add_assoc]
    · -- the row that was blank, which is also the next one of the page
      obtain rfl : r = 23 := by omega
      rw [h.below (t + 1 + 23) k (by omega)]
      exact h.last k hk
  · exact Screen.scrollOneLine_last hk

theorem settle (h : s.Shows p t) :
    ∃ s', s.settle = some s' ∧ s'.Shows p (if p.y = t + 24 then t + 1 else t) := by
  have hx := h.x
  have hy := h.y
  have hcol := h.column
  by_cases heq : p.y = t + 24
  · rw [if_pos heq]
    have hm : s.cursor.Moved := by
      unfold Position.Moved
      omega
    exact ⟨_, Screen.settle_eq_of_eq hm (by omega), h.scroll heq⟩
  · rw [if_neg heq]
    have hhigh := h.high
    exact ⟨s, Screen.settle_eq_of_lt (h.valid (by omega)), h⟩

end Screen.Shows

theorem Page.putWith_y (value : UInt8 → Color → Color → BitVec 16) (p : Page) (g : Glyph) :
    (p.putWith value g).y = p.y ∨ (p.putWith value g).y = p.y + 1 := by
  unfold Page.putWith Page.goTo Page.write
  repeat' split
  all_goals simp

namespace Screen

variable {s : Screen} {p : Page}

/-- One character. What the screen shows are the last 24 rows again. -/
theorem Shows.putChar (h : s.Shows p p.top) (g : Glyph) : ∃ s', s.putChar g = some s' ∧
    s'.Shows (p.putWith cellValue g) (p.putWith cellValue g).top := by
  have hlt : p.y < p.top + 24 := by
    unfold Page.top
    omega
  obtain ⟨s1, hmove, h1⟩ := h.move hlt g
  obtain ⟨s', hsettle, h'⟩ := h1.settle
  refine ⟨s', bind_eq_some_iff.mpr ⟨s1, hmove, hsettle⟩, ?_⟩
  have htop : (p.putWith cellValue g).top = if (p.putWith cellValue g).y = p.top + 24
      then p.top + 1 else p.top := by
    have hy := Page.putWith_y cellValue p g
    unfold Page.top at hlt ⊢
    split <;> omega
  rw [htop]
  exact h'

theorem Shows.putAll : ∀ (l : List Glyph) {s : Screen} {p : Page}, s.Shows p p.top →
    ∃ s', s.putAll l = some s' ∧
      s'.Shows (l.foldl (Page.putWith cellValue) p) (l.foldl (Page.putWith cellValue) p).top
  | [], s, _, h => ⟨s, rfl, h⟩
  | g :: l, s, p, h => by
    obtain ⟨s1, hput, h1⟩ := h.putChar g
    obtain ⟨s', hall, h'⟩ := Shows.putAll l h1
    exact ⟨s', bind_eq_some_iff.mpr ⟨s1, hput, hall⟩, h'⟩

theorem Shows.clear (s : Screen) : s.clear.Shows Page.blank Page.blank.top := by
  refine ⟨rfl, rfl, by decide, by decide, by decide, fun r hr k hk => ?_, fun k hk => ?_,
    fun r k _ => rfl⟩
  · simp only [Screen.clear, memset]
    rw [if_pos (by omega)]
    rfl
  · simp only [Screen.clear, memset]
    rw [if_pos (by omega)]

/-- The screen matches another page when that has the same rows. -/
theorem Shows.matches_iff {q : Page} (h : s.Shows q q.top) (hy : p.y = q.y) : s.Matches p ↔
    ∀ r < 24, ∀ k < 80, q.cell (q.top + r) k = p.cell (q.top + r) k := by
  have htop : p.top = q.top := by
    unfold Page.top
    rw [hy]
  constructor
  · intro hm r hr k hk
    rw [← h.rows r hr k hk, hm.rows r hr k hk, htop]
  · intro hrows
    refine ⟨fun r hr k hk => ?_, h.last⟩
    rw [h.rows r hr k hk, htop, hrows r hr k hk]

end Screen

/-! ## The value of a cell -/

/-- The colours are lost when the highest bit of the character is set. -/
theorem cellValue_eq (c : UInt8) (fg bg : Color) : cellValue c fg bg
    = (if c.toBitVec.msb then 0xff#8 else colours fg bg) ++ c.toBitVec := by
  refine BitVec.eq_of_getLsbD_eq fun i hi => ?_
  have h32 : i < 32 := by omega
  simp only [cellValue, BitVec.getLsbD_append, BitVec.getLsbD_setWidth, BitVec.getLsbD_or,
    BitVec.getLsbD_signExtend, BitVec.getLsbD_shiftLeft, hi, h32]
  by_cases h8 : i < 8
  · simp [h8, show i < 12 by omega]
  · have hff : ∀ j < 8, (255#8).getLsbD j = true := by decide
    have hsub : i - 8 - 4 = i - 12 := by omega
    by_cases hm : c.toBitVec.msb
    · simp [h8, hm, hff (i - 8) (by omega)]
    · simp only [h8, hm, colours, hsub, BitVec.getLsbD_or, BitVec.getLsbD_shiftLeft,
        BitVec.getLsbD_ofNat, show i - 8 < 8 by omega, show i - 8 < 32 by omega,
        show i - 12 < 8 by omega, show i - 12 < 32 by omega, show i - 8 < 4 ↔ i < 12 by omega,
        decide_true, Bool.true_and, decide_false, Bool.not_false, if_false, Bool.false_or,
        Bool.false_eq_true]

/-- The characters that are shown as they should be. -/
def Glyph.Plain (g : Glyph) : Prop := g.byte < 0x80 ∨ g.fg = .White ∧ g.bg = .White

instance (g : Glyph) : Decidable g.Plain := inferInstanceAs (Decidable (_ ∨ _))

theorem colours_eq_iff (fg bg : Color) : 0xff#8 = colours fg bg ↔ fg = .White ∧ bg = .White := by
  cases fg <;> cases bg <;> decide

theorem cellValue_eq_printed_iff (g : Glyph) :
    cellValue g.byte g.fg g.bg = printed g.byte g.fg g.bg ↔ g.Plain := by
  have hmsb : g.byte.toBitVec.msb = true ↔ ¬ g.byte < 0x80 := by
    rw [BitVec.msb_eq_decide, decide_eq_true_iff]
    exact Nat.not_lt.symm
  rw [cellValue_eq, printed]
  by_cases hb : g.byte.toBitVec.msb
  · rw [if_pos hb, BitVec.append_left_inj, colours_eq_iff]
    exact ⟨.inr, fun h => h.resolve_left (hmsb.mp hb)⟩
  · rw [if_neg hb]
    exact ⟨fun _ => .inl (Decidable.of_not_not fun h => hb (hmsb.mpr h)), fun _ => rfl⟩

/-! ## Two pages -/

namespace Page

variable {p : Page} {g : Glyph}

@[simp] theorem goTo_cell (p : Page) (x : Nat) : (p.goTo x).cell = p.cell := by
  unfold goTo
  split <;> rfl

theorem putWith_eq_of_plain (h : g.Plain) : p.putWith cellValue g = p.putWith printed g := by
  -- what a backspace leaves is never beyond `0x80`
  have hzero : cellValue 0 g.fg g.bg = printed 0 g.fg g.bg :=
    (cellValue_eq_printed_iff ⟨0, g.fg, g.bg⟩).mpr (.inl (by decide : (0 : UInt8) < 0x80))
  unfold putWith
  rw [hzero, (cellValue_eq_printed_iff g).mpr h]

theorem foldl_putWith_eq : ∀ {l : List Glyph} {p : Page}, (∀ g ∈ l, g.Plain) →
    l.foldl (putWith cellValue) p = l.foldl (putWith printed) p
  | [], _, _ => rfl
  | g :: l, p, h => by
    obtain ⟨hg, hl⟩ := List.forall_mem_cons.mp h
    rw [List.foldl_cons, List.foldl_cons, putWith_eq_of_plain hg, foldl_putWith_eq hl]

/-- All characters from `0x80` on are put in the same way. -/
theorem putWith_of_not_lt (value : UInt8 → Color → Color → BitVec 16) (h : ¬ g.byte < 0x80) :
    p.putWith value g = (p.write p.x (value g.byte g.fg g.bg)).goTo (p.x + 1) := by
  have hne : ∀ b : UInt8, b < 0x80 → g.byte ≠ b := fun b hb heq => h (heq ▸ hb)
  unfold putWith
  rw [if_neg (hne 10 (by decide)), if_neg (hne 13 (by decide)), if_neg (hne 8 (by decide)),
    if_neg (hne 9 (by decide))]

end Page

/-- A character that is not plain is seen at once: it is on the screen, and in the wrong
colours. -/
theorem Screen.Shows.not_matches {s' : Screen} {p : Page} {g : Glyph} (h : s.Shows p p.top)
    (hput : s.putChar g = some s') (hg : ¬ g.Plain) : ¬ s'.Matches (p.putWith printed g) := by
  have hb : ¬ g.byte < 0x80 := fun hlt => hg (.inl hlt)
  obtain ⟨s1, hput1, h'⟩ := h.putChar g
  obtain rfl := mem_unique hput hput1
  have hy := Page.putWith_y cellValue p g
  rw [Page.putWith_of_not_lt _ hb] at h' hy ⊢
  have hsame : ∀ v v', ((p.write p.x v).goTo (p.x + 1)).y = ((p.write p.x v').goTo (p.x + 1)).y := by
    intro v v'
    unfold Page.goTo Page.write
    split <;> rfl
  rw [h'.matches_iff (hsame _ _)]
  intro hrows
  -- the row where it stands is the last one that is shown, or the one above
  obtain ⟨r, hr, heq⟩ : ∃ r < 24,
      ((p.write p.x (cellValue g.byte g.fg g.bg)).goTo (p.x + 1)).top + r = p.y := by
    unfold Page.top
    exact ⟨p.y - (((p.write p.x (cellValue g.byte g.fg g.bg)).goTo (p.x + 1)).y - 23), by omega,
      by omega⟩
  have hcell := hrows r hr p.x h.column
  rw [heq, Page.goTo_cell, Page.goTo_cell] at hcell
  simp only [Page.write] at hcell
  exact hg ((cellValue_eq_printed_iff g).mp hcell)

/-! ## Strings -/

theorem Screen.putAll_append (l l' : List Glyph) :
    s.putAll (l ++ l') = (s.putAll l).bind fun s => s.putAll l' := List.foldlM_append

theorem Screen.putAll_singleton {g : Glyph} : s.putAll [g] = s.putChar g :=
  bind_pure (s.putChar g)

/-- All characters of some calls of `putString`. -/
def characters (calls : List Call) : List Glyph := calls.flatMap Call.glyphs

theorem putString_foldlM : ∀ {calls : List Call} {s : Screen},
    calls.foldlM Screen.putString s = s.putAll (characters calls)
  | [], _ => rfl
  | call :: calls, s => by
    rw [characters, List.flatMap_cons, Screen.putAll_append, foldlM_cons]
    exact congrArg _ (funext fun s => putString_foldlM)

/-- Characters can also be put with a call for each. -/
theorem characters_single (l : List Glyph) :
    characters (l.map fun g => .sized [g.byte] g.fg g.bg) = l := by
  induction l with
  | nil => rfl
  | cons g l ih =>
    rw [characters] at ih ⊢
    rw [List.map_cons, List.flatMap_cons, ih]
    rfl

/-- **The screen is a terminal** as long as the calls put plain characters only: it shows what it
is to show after these calls, and after any that put only the first of their characters. -/
theorem putString_matches_iff (s : Screen) (calls : List Call) :
    (∀ calls', characters calls' <+: characters calls →
      ∃ s', calls'.foldlM Screen.putString s.clear = some s' ∧
        s'.Matches (Page.ofGlyphs (characters calls'))) ↔
    ∀ g ∈ characters calls, g.Plain := by
  constructor
  · intro h
    have hall : ∀ pre, pre <+: characters calls → ∃ s', s.clear.putAll pre = some s' ∧
        s'.Matches (Page.ofGlyphs pre) := by
      intro pre hpre
      have hs := h (pre.map fun g => .sized [g.byte] g.fg g.bg)
      rw [characters_single, putString_foldlM, characters_single] at hs
      exact hs hpre
    generalize characters calls = l at hall
    -- from the back: the characters before the last one are plain, so that the pages are the same
    induction l using List.reverseRecOn with
    | nil => exact fun g hg => absurd hg not_mem_nil
    | append_singleton l g ih =>
      have hl := ih fun pre hpre => hall pre (hpre.trans (List.prefix_append l [g]))
      obtain ⟨s', hput, hm⟩ := hall (l ++ [g]) (List.prefix_refl _)
      obtain ⟨s₁, hput₁, h₁⟩ := Screen.Shows.putAll l (Screen.Shows.clear s)
      rw [Page.foldl_putWith_eq hl] at h₁
      rw [Screen.putAll_append] at hput
      obtain ⟨s₂, hput₂, hput⟩ := bind_eq_some_iff.mp hput
      obtain rfl := Option.some.inj (hput₁.symm.trans hput₂)
      rw [Page.ofGlyphs, List.foldl_append] at hm
      have hg : g.Plain := by
        by_contra hg
        rw [Screen.putAll_singleton] at hput
        exact h₁.not_matches hput hg hm
      intro g' hg'
      rcases mem_append.mp hg' with hg' | hg'
      · exact hl g' hg'
      · rwa [mem_singleton.mp hg']
  · intro hplain calls' hpre
    rw [putString_foldlM]
    obtain ⟨s', hput, h'⟩ := Screen.Shows.putAll (characters calls') (Screen.Shows.clear s)
    rw [Page.foldl_putWith_eq fun g hg => hplain g (hpre.subset hg)] at h'
    exact ⟨s', hput, (h'.matches_iff rfl).mpr fun r _ k _ => rfl⟩

/-- An é of Latin-1 in the usual colours. -/
theorem putString_latin1 : ¬ ∃ s', [Call.sized [0xe9] .LightGrey .Black].foldlM Screen.putString
      (Screen.clear ⟨fun _ => 0, ⟨0, 0⟩, []⟩) = some s' ∧
    s'.Matches (Page.ofGlyphs (characters [.sized [0xe9] .LightGrey .Black])) := by
  intro ⟨s', hput, hm⟩
  rw [putString_foldlM] at hput
  have hput := Screen.putAll_singleton.symm.trans hput
  exact (Screen.Shows.clear _).not_matches hput (by decide) hm

end Flix.Console

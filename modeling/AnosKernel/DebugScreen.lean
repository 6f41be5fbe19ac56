import Mathlib.Data.BitVec
import Mathlib.Logic.Function.Basic
import Mathlib.Tactic.Ring
import AnosKernel.DebugTermBounds

/-!
# The debug terminal as a text screen

`Screen` is a text screen by itself, with rows of cells. The back buffer shows it as long as no
row is dropped, and further on if the columns come in fours: `scroll` blanks the last row four
columns at a time.
-/

namespace DebugTerm

open Checked

/-! ## The text screen -/

/-- A character and its attribute. -/
abbrev Cell := Byte × Byte

def blank : Cell := (0x20, 0x08)

theorem ne_blank {chr attr : Byte} (hattr : attr ≠ 0x08) : ((chr, attr) : Cell) ≠ blank :=
  fun heq => hattr (congrArg Prod.snd heq)

structure Screen where
  cols : Nat
  rows : Nat
  cells : Nat → Nat → Cell
  x : Nat
  y : Nat

namespace Screen

/-- Before the first character. -/
def start (cols rows : Nat) : Screen := ⟨cols, rows, fun _ _ => (0, 0), 0, 0⟩

/-- The first row is dropped, and a row of blanks is appended. -/
def dropRow (s : Screen) : Screen :=
  { s with
    cells := fun row col => if row + 1 < s.rows then s.cells (row + 1) col else blank
    x := 0
    y := s.rows - 1 }

/-- A character beyond the last row drops a row. -/
def room (s : Screen) : Screen := if s.y = s.rows then s.dropRow else s

def newline (s : Screen) : Screen := { s with x := 0, y := s.y + 1 }

def write (s : Screen) (cell : Cell) : Screen :=
  let s := { s with
    cells := fun row col => if row = s.y ∧ col = s.x then cell else s.cells row col }
  if s.x + 1 = s.cols then s.newline else { s with x := s.x + 1 }

def put (attr : Byte) (s : Screen) (chr : Byte) : Screen :=
  if chr = 0 then s.room
  else if chr = 10 then s.room.newline
  else s.room.write (chr, attr)

/-- The screen after the characters, which all have the attribute of `debugterm_reinit`. -/
def after (cols rows : Nat) (chars : List Byte) : Screen := chars.foldl (put 7) (start cols rows)

theorem after_append (cols rows : Nat) (chars : List Byte) (chr : Byte) :
    after cols rows (chars ++ [chr]) = (after cols rows chars).put 7 chr :=
  List.foldl_append

end Screen

/-! ## The cells of the back buffer -/

/-- The cell at a row and a column. -/
def cellAt (cols : Nat) (backbuf : Nat → Byte) (row col : Nat) : Cell :=
  (backbuf (2 * (row * cols + col)), backbuf (2 * (row * cols + col) + 1))

namespace Display

/-- The cells fit the back buffer. -/
def Fits (d : Display) : Prop := d.cols * d.rows * 2 ≤ backbufSize

variable {d : Display} {row col e x y : Nat} {backbuf : Nat → Byte}

theorem size_eq (fits : d.Fits) : d.size = d.rows * d.line := by
  have hfits : d.cols * d.rows * 2 ≤ 32768 := fits
  have harea : d.line * d.rows = d.cols * d.rows * 2 := by
    rw [line]
    ring
  rw [size, Nat.mul_comm d.rows, harea]
  exact Nat.mod_eq_of_lt (by omega)

theorem roomy_of_fits (proper : d.Proper) (fits : d.Fits) : d.Roomy := by
  have hfits : d.cols * d.rows * 2 ≤ 32768 := fits
  have hcolumns := proper.columns
  have hwidth : d.width ≤ 16 * d.cols := by
    rw [cols] at hcolumns ⊢
    omega
  have hcorner : (d.rows - 1) * 16 * d.width ≤ d.rows * 16 * (16 * d.cols) :=
    Nat.mul_le_mul (Nat.mul_le_mul_right _ (Nat.sub_le _ _)) hwidth
  have harea : d.rows * 16 * (16 * d.cols) = 256 * (d.cols * d.rows) := by ring
  have hcols := line_lt proper
  have hsize := size_eq fits
  have hline : d.line = d.cols * 2 := rfl
  have hsizeArea : d.rows * d.line = d.cols * d.rows * 2 := by
    rw [hline]
    ring
  constructor
  · rw [hsize]
    exact Nat.le_mul_of_pos_left _ proper.rows_pos
  · rw [hsize, hsizeArea]
    exact fits
  · omega

/-- After the lines have moved up, the last row is blank as far as it goes in fours. -/
theorem moveUp_byte (fits : d.Fits) (hrow : row < d.rows) (hcol : col < d.cols)
    (he : e < 2) : moveUp d backbuf (2 * (row * d.cols + col) + e) =
      if row + 1 < d.rows then backbuf (2 * ((row + 1) * d.cols + col) + e)
      else if col < 4 * (d.cols / 4) then (if e = 0 then 0x20 else 0x08)
      else backbuf (2 * (row * d.cols + col) + e) := by
  have hline : d.line = d.cols * 2 := rfl
  have hsize := size_eq fits
  have haddress : 2 * (row * d.cols + col) + e = row * d.line + (2 * col + e) := by
    rw [hline]
    ring
  have hbelow : d.line + (row * d.line + (2 * col + e)) = 2 * ((row + 1) * d.cols + col) + e := by
    rw [hline]
    ring
  have hlast : d.size - d.line = (d.rows - 1) * d.line := by
    rw [hsize, Nat.sub_mul, Nat.one_mul]
  rw [haddress, moveUp, hlast, fill64]
  by_cases hnext : row + 1 < d.rows
  · have hend : (row + 1) * d.line ≤ (d.rows - 1) * d.line := Nat.mul_le_mul_right _ (by omega)
    rw [Nat.add_mul, Nat.one_mul] at hend
    rw [if_neg (by omega), if_pos (by omega), if_pos hnext, hbelow]
  · have hrowEq : d.rows - 1 = row := by omega
    rw [hrowEq, if_neg hnext]
    by_cases hfilled : col < 4 * (d.cols / 4)
    · have hoffset : (row * d.line + (2 * col + e) - row * d.line) % 2 = e := by omega
      rw [if_pos (by omega), if_pos hfilled, hoffset]
    · rw [if_neg (by omega), if_neg hfilled, if_neg (by omega)]

theorem moveUp_cell (fits : d.Fits) (hrow : row < d.rows)
    (hcol : col < d.cols) : cellAt d.cols (moveUp d backbuf) row col =
      if row + 1 < d.rows then cellAt d.cols backbuf (row + 1) col
      else if col < 4 * (d.cols / 4) then blank
      else cellAt d.cols backbuf row col := by
  have hchar := @moveUp_byte d row col 0 backbuf fits hrow hcol (by decide)
  have hattr := @moveUp_byte d row col 1 backbuf fits hrow hcol (by decide)
  rw [cellAt, hattr]
  rw [Nat.add_zero] at hchar
  rw [hchar]
  split
  · rfl
  split
  · rfl
  · rfl

/-- Different cells are at different places. -/
theorem cell_inj {row' col' : Nat} (hcol : col < d.cols) (hcol' : col' < d.cols)
    (h : row * d.cols + col = row' * d.cols + col') : row = row' ∧ col = col' := by
  have hcols : 0 < d.cols := Nat.zero_lt_of_lt hcol
  constructor
  · have hdiv := congrArg (· / d.cols) h
    rwa [Nat.mul_comm row, Nat.mul_comm row', Nat.mul_add_div hcols, Nat.mul_add_div hcols,
      Nat.div_eq_of_lt hcol, Nat.div_eq_of_lt hcol', Nat.add_zero, Nat.add_zero] at hdiv
  · have hmod := congrArg (· % d.cols) h
    rwa [Nat.mul_add_mod_of_lt hcol, Nat.mul_add_mod_of_lt hcol'] at hmod

theorem written_cell {chr attr : Byte} (hx : x < d.cols) (hcol : col < d.cols) :
    cellAt d.cols (written backbuf (2 * (y * d.cols + x)) chr attr) row col =
      if row = y ∧ col = x then (chr, attr) else cellAt d.cols backbuf row col := by
  rw [cellAt, written, cellAt]
  by_cases hhere : row = y ∧ col = x
  · obtain ⟨rfl, rfl⟩ := hhere
    rw [if_pos ⟨rfl, rfl⟩, Function.update_self, Function.update_of_ne (by omega),
      Function.update_self]
  · have hne : row * d.cols + col ≠ y * d.cols + x := fun h => hhere (cell_inj hcol hx h)
    rw [if_neg hhere, Function.update_of_ne (by omega), Function.update_of_ne (by omega),
      Function.update_of_ne (by omega), Function.update_of_ne (by omega)]

theorem full_iff (proper : d.Proper) (fits : d.Fits) (hx : x < d.cols) (hy : y ≤ d.rows) :
    d.Full (x, y) ↔ y = d.rows := by
  have hroomy := roomy_of_fits proper fits
  have hsize := size_eq fits
  constructor
  · intro hfull
    by_contra hne
    have hrow : (y + 1) * d.line ≤ d.rows * d.line := Nat.mul_le_mul_right _ (by omega)
    have hcolumn := column_lt hx
    rw [Nat.add_mul, Nat.one_mul] at hrow
    refine not_full ?_ hy hfull
    rw [place_early hx hroomy proper (by omega)]
    omega
  · rintro rfl
    left
    rw [place_beyond hx hroomy proper]
    omega

theorem place_cell (proper : d.Proper) (fits : d.Fits) (hx : x < d.cols) (hy : y < d.rows) :
    d.place (x, y) = 2 * (y * d.cols + x) := by
  have hrow : y * d.line ≤ d.rows * d.line := Nat.mul_le_mul_right _ hy.le
  have hsize := size_eq fits
  have hline := Nat.mul_pos proper.columns (Nat.zero_lt_two)
  have hpos : 0 < d.line := hline
  rw [place_early hx (roomy_of_fits proper fits) proper (by omega), line]
  ring

end Display

/-! ## The terminal follows the screen -/

/-- What the terminal and the screen have in common after any characters. The fours are blanked
where a row is dropped; the columns behind them have never been blank. -/
structure Follows (d : Display) (t : Terminal) (s : Screen) : Prop where
  sized : Sized d t
  attr : t.attr = 7
  cursor : t.cursor = (s.x, s.y)
  cols : s.cols = d.cols
  rows : s.rows = d.rows
  column : s.x < d.cols
  row : s.y ≤ d.rows
  behind : ∀ row < d.rows, ∀ col < d.cols, 4 * (d.cols / 4) ≤ col →
    cellAt d.cols t.backbuf row col ≠ blank

/-- The back buffer shows the screen. -/
def Shows (d : Display) (t : Terminal) (s : Screen) : Prop :=
  ∀ row < d.rows, ∀ col < d.cols, cellAt d.cols t.backbuf row col = s.cells row col

/-- A cell that is not blanked where a row is dropped. -/
def Stale (d : Display) (s : Screen) (row col : Nat) : Prop :=
  s.y = d.rows ∧ row + 1 = d.rows ∧ 4 * (d.cols / 4) ≤ col

section Simulation

variable {d : Display} {t t₁ t' : Terminal} {s : Screen} {font : Nat → Byte} {phys row col : Nat}
  {chr : Byte}

theorem Follows.full_iff (follows : Follows d t s) (proper : d.Proper) (fits : d.Fits) :
    d.Full t.cursor ↔ s.y = d.rows := by
  rw [follows.cursor]
  exact Display.full_iff proper fits follows.column follows.row

theorem room_cell (proper : d.Proper) (fits : d.Fits) (follows : Follows d t s)
    (room : Room d t t₁ phys) (hrow : row < d.rows) (hcol : col < d.cols) :
    cellAt d.cols t₁.backbuf row col =
      if s.y = d.rows ∧ row + 1 < d.rows then cellAt d.cols t.backbuf (row + 1) col
      else if s.y = d.rows ∧ col < 4 * (d.cols / 4) then blank
      else cellAt d.cols t.backbuf row col := by
  have hfull := follows.full_iff proper fits
  rw [room.backbuf]
  by_cases hlast : s.y = d.rows
  · rw [if_pos (hfull.mpr hlast), Display.moveUp_cell fits hrow hcol]
    simp only [hlast, true_and]
  · rw [if_neg (mt hfull.mp hlast)]
    simp only [hlast, false_and, if_false]

theorem room_follows (proper : d.Proper) (fits : d.Fits) (follows : Follows d t s)
    (room : Room d t t₁ phys) : Follows d t₁ s.room ∧ s.room.y < d.rows := by
  have hfull := follows.full_iff proper fits
  have hbehind : ∀ row < d.rows, ∀ col < d.cols, 4 * (d.cols / 4) ≤ col →
      cellAt d.cols t₁.backbuf row col ≠ blank := by
    intro row hrow col hcol htail
    rw [room_cell proper fits follows room hrow hcol]
    split
    · next hmoved => exact follows.behind (row + 1) hmoved.2 col hcol htail
    split
    · next hfilled => omega
    · exact follows.behind row hrow col hcol htail
  have hcursor := room.cursor
  have hattr := room.attr.trans follows.attr
  have hlastRow := Display.last_row proper
  have hpos := proper.rows_pos
  rw [Screen.room, follows.rows]
  by_cases hlast : s.y = d.rows
  · rw [Display.ready, if_pos (hfull.mpr hlast)] at hcursor
    have hrowEq : (d.rows + 65535) % 65536 = d.rows - 1 := by omega
    rw [hrowEq, ← follows.rows] at hcursor
    rw [if_pos hlast]
    have hy : s.dropRow.y = d.rows - 1 := congrArg (· - 1) follows.rows
    exact ⟨⟨room.sized, hattr, hcursor, follows.cols, follows.rows, proper.columns, by omega,
      hbehind⟩, by omega⟩
  · rw [Display.ready, if_neg (mt hfull.mp hlast), follows.cursor] at hcursor
    rw [if_neg hlast]
    have hrow := follows.row
    exact ⟨⟨room.sized, hattr, hcursor, follows.cols, follows.rows, follows.column, hrow, hbehind⟩,
      by omega⟩

/-- The cells are those of the screen, but for the stale ones. -/
theorem room_shows (proper : d.Proper) (fits : d.Fits) (follows : Follows d t s)
    (room : Room d t t₁ phys) (shown : Shows d t s) (hrow : row < d.rows) (hcol : col < d.cols) :
    cellAt d.cols t₁.backbuf row col = s.room.cells row col ↔ ¬ Stale d s row col := by
  rw [room_cell proper fits follows room hrow hcol, Screen.room, follows.rows, Stale]
  by_cases hlast : s.y = d.rows
  · rw [if_pos hlast, Screen.dropRow]
    dsimp only
    rw [follows.rows]
    by_cases hnext : row + 1 < d.rows
    · rw [if_pos ⟨hlast, hnext⟩, if_pos hnext, shown (row + 1) hnext col hcol]
      exact iff_of_true rfl (by omega)
    · rw [if_neg (by omega), if_neg hnext]
      by_cases htail : 4 * (d.cols / 4) ≤ col
      · rw [if_neg (by omega)]
        exact iff_of_false (follows.behind row hrow col hcol htail) (by omega)
      · rw [if_pos (by omega)]
        exact iff_of_true rfl (by omega)
  · rw [if_neg (by omega), if_neg (by omega), if_neg hlast, shown row hrow col hcol]
    exact iff_of_true rfl (by omega)

/-- A row can be dropped: its columns come in fours, or the only column is written at once. -/
def Keeps (d : Display) (s : Screen) (chr : Byte) : Prop :=
  s.y = d.rows → d.cols % 4 = 0 ∨ d.cols = 1 ∧ chr ≠ 0 ∧ chr ≠ 10

theorem no_stale_iff (proper : d.Proper) :
    (∀ row < d.rows, ∀ col < d.cols, ¬ Stale d s row col) ↔ (s.y = d.rows → d.cols % 4 = 0) := by
  have hpos := proper.rows_pos
  have hcolumns := proper.columns
  constructor
  · intro hfresh hlast
    by_contra htail
    exact hfresh (d.rows - 1) (by omega) (d.cols - 1) (by omega) ⟨hlast, by omega, by omega⟩
  · rintro hfours row hrow col hcol ⟨hlast, -, htail⟩
    have hdivides := hfours hlast
    omega

theorem no_stale_behind_iff (proper : d.Proper) (rows : s.rows = d.rows) :
    (∀ row < d.rows, ∀ col < d.cols, ¬ (row = s.room.y ∧ col = s.room.x) → ¬ Stale d s row col) ↔
      (s.y = d.rows → d.cols % 4 = 0 ∨ d.cols = 1) := by
  have hpos := proper.rows_pos
  have hcolumns := proper.columns
  by_cases hlast : s.y = d.rows
  · have hx : s.room.x = 0 := by
      rw [Screen.room, if_pos (hlast.trans rows.symm)]
      rfl
    have hy : s.room.y = d.rows - 1 := by
      rw [Screen.room, if_pos (hlast.trans rows.symm), ← rows]
      rfl
    rw [hx, hy]
    constructor
    · intro hfresh _
      by_contra htail
      exact hfresh (d.rows - 1) (by omega) (d.cols - 1) (by omega) (by omega)
        ⟨hlast, by omega, by omega⟩
    · rintro hfours row hrow col hcol hother ⟨-, hbottom, htail⟩
      have hdivides := hfours hlast
      omega
  · exact iff_of_true (fun row _ col _ _ hstale => hlast hstale.1) (fun h => absurd h hlast)

theorem newline_follows (proper : d.Proper) (follows : Follows d t s) (hrow : s.y < d.rows) :
    Follows d { t with logicalX := 0, logicalY := (t.logicalY + 1) % 65536 } s.newline := by
  obtain ⟨⟨hwidth, hheight, hcols, hrows, hline, hsize⟩, hattr, hcursor, hscols, hsrows, -, -,
    hbehind⟩ := follows
  have hy : t.logicalY = s.y := congrArg Prod.snd hcursor
  have hlt := Display.rows_lt proper
  refine ⟨⟨hwidth, hheight, hcols, hrows, hline, hsize⟩, hattr, ?_, hscols, hsrows,
    proper.columns, hrow, hbehind⟩
  rw [hy, Nat.mod_eq_of_lt (by omega)]
  rfl

theorem Screen.write_cells (s : Screen) (cell : Cell) (row col : Nat) :
    (s.write cell).cells row col = if row = s.y ∧ col = s.x then cell else s.cells row col := by
  rw [Screen.write]
  dsimp only
  split
  · rfl
  · rfl

theorem write_cell (proper : d.Proper) (fits : d.Fits) (follows : Follows d t s)
    (hrow : s.y < d.rows) (hcol : col < d.cols) :
    cellAt d.cols (written t.backbuf (d.place t.cursor) chr t.attr) row col =
      if row = s.y ∧ col = s.x then (chr, 7) else cellAt d.cols t.backbuf row col := by
  rw [follows.cursor, follows.attr, Display.place_cell proper fits follows.column hrow]
  exact Display.written_cell follows.column hcol

theorem write_follows (proper : d.Proper) (fits : d.Fits) (follows : Follows d t s)
    (hrow : s.y < d.rows) (written_ne : ((chr, 7) : Cell) ≠ blank) (fb : Nat → BitVec 32) :
    Follows d (advance { t with
      fb := fb
      backbuf := written t.backbuf (d.place t.cursor) chr t.attr }) (s.write (chr, 7)) := by
  have hbehind : ∀ row < d.rows, ∀ col < d.cols, 4 * (d.cols / 4) ≤ col →
      cellAt d.cols (written t.backbuf (d.place t.cursor) chr t.attr) row col ≠ blank := by
    intro row hr col hcol htail
    rw [write_cell proper fits follows hrow hcol]
    split
    · exact written_ne
    · exact follows.behind row hr col hcol htail
  have hcols := Display.cols_lt proper
  obtain ⟨⟨hwidth, hheight, hcolCount, hrows, hline, hsize⟩, hattr, hcursor, hscols, hsrows,
    hcolumn, -, -⟩ := id follows
  have hx : t.logicalX = s.x := congrArg Prod.fst hcursor
  have hy : t.logicalY = s.y := congrArg Prod.snd hcursor
  have hwritten : Follows d { t with
      fb := fb
      backbuf := written t.backbuf (d.place t.cursor) chr t.attr }
      { s with cells := fun row col =>
        if row = s.y ∧ col = s.x then (chr, 7) else s.cells row col } :=
    ⟨⟨hwidth, hheight, hcolCount, hrows, hline, hsize⟩, hattr, hcursor, hscols, hsrows,
      hcolumn, hrow.le, hbehind⟩
  have hnext : (t.logicalX + 1) % 65536 = s.x + 1 := by
    rw [hx]
    exact Nat.mod_eq_of_lt (by omega)
  rw [advance, Screen.write]
  dsimp only
  by_cases hlast : s.x + 1 = s.cols
  · rw [if_pos (by omega), if_pos hlast]
    exact newline_follows proper hwritten hrow
  · rw [if_neg (by omega), if_neg hlast]
    have hcursor' : ((t.logicalX + 1) % 65536, t.logicalY) = (s.x + 1, s.y) := by rw [hnext, hy]
    exact ⟨⟨hwidth, hheight, hcolCount, hrows, hline, hsize⟩, hattr, hcursor', hscols, hsrows,
      by dsimp only; omega, hrow.le, hbehind⟩

theorem keeps_iff_of_unwritten (unwritten : chr = 0 ∨ chr = 10) :
    Keeps d s chr ↔ (s.y = d.rows → d.cols % 4 = 0) := by
  refine imp_congr_right fun _ => or_iff_left ?_
  rintro ⟨-, hnul, hnewline⟩
  exact unwritten.elim hnul hnewline

/-- The terminal follows the screen, and shows it unless a dropped row leaves stale cells. -/
theorem put_step (proper : d.Proper) (fits : d.Fits) (follows : Follows d t s)
    (h : debugcharNp font t chr = some t') :
    Follows d t' (s.put 7 chr) ∧ (Shows d t s → (Shows d t' (s.put 7 chr) ↔ Keeps d s chr)) := by
  have hline := Display.line_lt proper
  obtain ⟨t₁, phys, hroom, hwrote⟩ := debugcharNp_cases follows.sized proper.columns (by omega) h
  obtain ⟨hfollows, hrow⟩ := room_follows proper fits follows hroom
  have hmoved : Shows d t s → (Shows d t₁ s.room ↔ (s.y = d.rows → d.cols % 4 = 0)) := by
    intro hshown
    rw [← no_stale_iff proper]
    exact forall₂_congr fun row hr => forall₂_congr fun col hcol =>
      room_shows proper fits follows hroom hshown hr hcol
  rw [Screen.put]
  cases hwrote with
  | nul hnul =>
    rw [if_pos hnul, keeps_iff_of_unwritten (Or.inl hnul)]
    exact ⟨hfollows, hmoved⟩
  | newline hnewline =>
    have hnul : chr ≠ 0 := by
      rw [hnewline]
      decide
    rw [if_neg hnul, if_pos hnewline, keeps_iff_of_unwritten (Or.inr hnewline)]
    exact ⟨newline_follows proper hfollows hrow, hmoved⟩
  | cell fb hnul hnewline hinside hpaintable =>
    have hne : ((chr, 7) : Cell) ≠ blank := ne_blank (by decide)
    rw [if_neg hnul, if_neg hnewline, hroom.place]
    refine ⟨write_follows proper fits hfollows hrow hne fb, ?_⟩
    intro hshown
    have hkeeps : Keeps d s chr ↔ (s.y = d.rows → d.cols % 4 = 0 ∨ d.cols = 1) := by
      refine imp_congr_right fun _ => or_congr_right ?_
      exact and_iff_left ⟨hnul, hnewline⟩
    rw [hkeeps, ← no_stale_behind_iff proper follows.rows]
    refine forall₂_congr fun row hr => forall₂_congr fun col hcol => ?_
    have hcell : cellAt d.cols (advance { t₁ with
        fb := fb
        backbuf := written t₁.backbuf (d.place t₁.cursor) chr t₁.attr }).backbuf row col =
        cellAt d.cols (written t₁.backbuf (d.place t₁.cursor) chr t₁.attr) row col := by
      rw [advance]
      split
      · rfl
      · rfl
    rw [hcell, write_cell proper fits hfollows hrow hcol, Screen.write_cells]
    by_cases hhere : row = s.room.y ∧ col = s.room.x
    · rw [if_pos hhere, if_pos hhere]
      exact iff_of_true rfl (fun h => absurd hhere h)
    · rw [if_neg hhere, if_neg hhere, room_shows proper fits follows hroom hshown hr hcol]
      exact (imp_iff_right hhere).symm

end Simulation

section Runs

variable {width height : BitVec 16} {font : Nat → Byte} {fb : Nat → BitVec 32}

theorem follows_init (hwidth : 8 ≤ width.toNat) :
    Follows ⟨width.toNat, height.toNat⟩ (debugtermInit fb width height)
      (Screen.start (width.toNat / 8) (height.toNat / 16)) := by
  refine ⟨sized_init fb, rfl, rfl, rfl, rfl, Nat.div_pos hwidth (by decide), Nat.zero_le _, ?_⟩
  intro row _ col _ _
  exact ne_blank (by show (0 : Byte) ≠ 8; decide)

theorem debugchars_append (t : Terminal) (done : List Byte) (chr : Byte) :
    debugchars font t (done ++ [chr]) =
      (debugchars font t done).bind fun t => debugcharNp font t chr := by
  rw [debugchars, List.foldlM_append]
  refine congrArg _ (funext fun t' => ?_)
  rw [List.foldlM_cons]
  exact bind_pure _

/-- The terminal follows the screen through any characters. -/
theorem follows_after (hwidth : 8 ≤ width.toNat) (hheight : 16 ≤ height.toNat)
    (fits : Display.Fits ⟨width.toNat, height.toNat⟩) (done : List Byte) {t : Terminal}
    (run : debugchars font (debugtermInit fb width height) done = some t) :
    Follows ⟨width.toNat, height.toNat⟩ t
      (Screen.after (width.toNat / 8) (height.toNat / 16) done) := by
  induction done using List.reverseRecOn generalizing t with
  | nil =>
    cases run
    exact follows_init hwidth
  | append_singleton done chr ih =>
    rw [debugchars_append] at run
    obtain ⟨t', hdone, hstep⟩ := Option.bind_eq_some_iff.mp run
    rw [Screen.after_append]
    exact (put_step (proper_init hwidth hheight) fits (ih hdone) hstep).1

/-- After the characters the back buffer shows the text screen. -/
def ShowsAfter (font : Nat → Byte) (fb : Nat → BitVec 32) (width height : BitVec 16)
    (chars : List Byte) : Prop :=
  ∃ t, debugchars font (debugtermInit fb width height) chars = some t ∧
    Shows ⟨width.toNat, height.toNat⟩ t (Screen.after (width.toNat / 8) (height.toNat / 16) chars)

theorem showsAfter_nil : ShowsAfter font fb width height [] :=
  ⟨debugtermInit fb width height, rfl, fun _ _ _ _ => rfl⟩

theorem showsAfter_append (hwidth : 8 ≤ width.toNat) (hheight : 16 ≤ height.toNat)
    (fits : Display.Fits ⟨width.toNat, height.toNat⟩) (done : List Byte) (chr : Byte)
    (shown : ShowsAfter font fb width height done) :
    ShowsAfter font fb width height (done ++ [chr]) ↔
      Keeps ⟨width.toNat, height.toNat⟩ (Screen.after (width.toNat / 8) (height.toNat / 16) done)
        chr := by
  have hproper := proper_init hwidth hheight
  have hroomy := Display.roomy_of_fits hproper fits
  obtain ⟨t, hrun, hshown⟩ := shown
  have hfollows := follows_after hwidth hheight fits done hrun
  obtain ⟨t', hrun'⟩ := (debugchars_iff font fb hwidth hheight (done ++ [chr])).mpr
    ((Display.always_iff hproper).mpr hroomy _)
  have hstep : debugcharNp font t chr = some t' := by
    rw [debugchars_append, hrun] at hrun'
    exact hrun'
  rw [← (put_step hproper fits hfollows hstep).2 hshown, ShowsAfter, Screen.after_append, hrun']
  constructor
  · rintro ⟨t'', heq, hshows⟩
    cases heq
    exact hshows
  · exact fun hshows => ⟨t', rfl, hshows⟩

end Runs

/-- The back buffer shows the text screen all along just if each row that is dropped can be. -/
theorem debugchars_shows_iff (font : Nat → Byte) (fb : Nat → BitVec 32) {width height : BitVec 16}
    (hwidth : 8 ≤ width.toNat) (hheight : 16 ≤ height.toNat)
    (fits : width.toNat / 8 * (height.toNat / 16) * 2 ≤ backbufSize) (chars : List Byte) :
    (∀ done, done <+: chars → ShowsAfter font fb width height done) ↔
      ∀ done chr, done ++ [chr] <+: chars →
        Keeps ⟨width.toNat, height.toNat⟩
          (Screen.after (width.toNat / 8) (height.toNat / 16) done) chr :=
  along_iff showsAfter_nil (showsAfter_append hwidth hheight fits)

/-- Rows of 80 columns, and two of them. -/
theorem debugchars_shows_iff_text :
    (∀ done, done <+: [65, 10, 10, 66] → ShowsAfter (fun _ => 0) (fun _ => 0) 640 32 done) ↔
      ∀ done chr, done ++ [chr] <+: [65, 10, 10, 66] →
        Keeps ⟨(640 : BitVec 16).toNat, (32 : BitVec 16).toNat⟩
          (Screen.after ((640 : BitVec 16).toNat / 8) ((32 : BitVec 16).toNat / 16) done) chr :=
  debugchars_shows_iff _ _ (by decide) (by decide) (by decide) _

/-- In a single row of five columns, the fifth one is not blanked. -/
theorem fifth_column_stays : ¬ ShowsAfter (fun _ => 0) (fun _ => 0) 40 16 [10, 10] := by
  have hfits : Display.Fits ⟨(40 : BitVec 16).toNat, (16 : BitVec 16).toNat⟩ := by
    show 5 * 1 * 2 ≤ 32768
    decide
  have hstep := @showsAfter_append 40 16 (fun _ => 0) (fun _ => 0) (by decide) (by decide) hfits
  have hfirst : ShowsAfter (fun _ => 0) (fun _ => 0) 40 16 [10] :=
    (hstep [] 10 showsAfter_nil).mpr fun hlast => absurd hlast (by decide)
  rw [show ([10, 10] : List Byte) = [10] ++ [10] from rfl, hstep [10] 10 hfirst]
  intro hkeeps
  rcases hkeeps rfl with hfours | ⟨-, -, hwritten⟩
  · exact absurd hfours (by decide)
  · exact hwritten rfl

end DebugTerm

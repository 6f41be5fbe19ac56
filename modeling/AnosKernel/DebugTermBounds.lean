import Mathlib.Data.BitVec
import Mathlib.Logic.Function.Basic
import Mathlib.Tactic.Ring
import AnosKernel.DebugTerm

/-!
# The accesses of the debug terminal

Every access is inside the buffers just on the displays whose 16-bit size is at least a line and at
most the back buffer, and whose last character has its first pixel below `2 ^ 31`.
-/

namespace DebugTerm

open Checked

namespace Display

/-- The 16-bit numbers of a display of at least one character. -/
structure Proper (d : Display) : Prop where
  width : d.width < 65536
  height : d.height < 65536
  columns : 0 < d.cols
  rows_pos : 0 < d.rows

/-- Characters stay inside the buffers. -/
structure Roomy (d : Display) : Prop where
  line_le : d.line ≤ d.size
  size_le : d.size ≤ backbufSize
  corner : (d.rows - 1) * 16 * d.width + (d.cols - 1) * 8 < 2 ^ 31

instance (d : Display) : Decidable d.Roomy :=
  decidable_of_iff (d.line ≤ d.size ∧ d.size ≤ backbufSize ∧
      (d.rows - 1) * 16 * d.width + (d.cols - 1) * 8 < 2 ^ 31)
    ⟨fun h => ⟨h.1, h.2.1, h.2.2⟩, fun h => ⟨h.1, h.2, h.3⟩⟩

variable {d : Display} {x y n : Nat}

/-! ## The pixels of a character -/

/-- The last dot of a character is inside the display. -/
theorem dot_lt {dy k : Nat} (hx : x < d.cols) (hy : y < d.rows) (hdy : dy < 16) (hk : k < 8) :
    (y * 16 + dy) * d.width + (x * 8 + k) < d.width * d.height := by
  have hcols : d.cols * 8 ≤ d.width := Nat.div_mul_le_self d.width 8
  have hrows : d.rows * 16 ≤ d.height := Nat.div_mul_le_self d.height 16
  calc (y * 16 + dy) * d.width + (x * 8 + k) < (y * 16 + dy) * d.width + d.width := by omega
    _ = (y * 16 + dy + 1) * d.width := by ring
    _ ≤ d.height * d.width := Nat.mul_le_mul_right _ (by omega)
    _ = d.width * d.height := Nat.mul_comm _ _

theorem area_lt (proper : d.Proper) : d.width * d.height < 2 ^ 32 := by
  calc d.width * d.height ≤ 65535 * 65535 :=
        Nat.mul_le_mul (Nat.le_of_lt_succ proper.width) (Nat.le_of_lt_succ proper.height)
    _ < 2 ^ 32 := by decide

theorem bmod_small {v : Nat} (hv : v < 2 ^ 31) : Int.bmod v (2 ^ 32) = v :=
  Int.bmod_eq_of_le_mul_two (by omega) (by omega)

theorem bmod_negative {v : Nat} (large : 2 ^ 31 ≤ v) (hv : v < 2 ^ 32) :
    Int.bmod v (2 ^ 32) < 0 := by
  have hwrapped : Int.bmod v (2 ^ 32) = v + -(2 ^ 32 : Nat) := by
    rw [← Int.add_neg_bmod_self]
    exact Int.bmod_eq_of_le_mul_two (by omega) (by omega)
  rw [hwrapped]
  omega

theorem fbCharBase_eq (width xBase yBase : Nat) :
    fbCharBase width xBase yBase = Int.bmod (xBase + yBase * width : Nat) (2 ^ 32) := rfl

/-- A character is painted inside the display unless its first pixel is too large for an `int`. -/
theorem paintable_iff (proper : d.Proper) (hx : x < d.cols) (hy : y < d.rows) :
    Paintable d.width d.height x y ↔ y * 16 * d.width + x * 8 < 2 ^ 31 := by
  have hbase : x * gdebugtermFontWidth + y * gdebugtermFontHeight * d.width =
      y * 16 * d.width + x * 8 := Nat.add_comm _ _
  have hfirst : y * 16 * d.width + x * 8 < 2 ^ 32 :=
    lt_trans (@dot_lt d x y 0 0 hx hy (by decide) (by decide)) (area_lt proper)
  constructor
  · intro hpaintable
    by_contra hlarge
    have hdot := (hpaintable 0 (by decide) 0 (by decide)).1
    rw [fbCharBase_eq, hbase, Nat.zero_mul, Int.natCast_zero, Int.add_zero, Int.add_zero] at hdot
    exact absurd (bmod_negative (Nat.le_of_not_lt hlarge) hfirst) (not_lt.mpr hdot)
  · intro hsmall dy hdy k hk
    have hdot := dot_lt hx hy (List.mem_range.mp hdy) (List.mem_range.mp hk)
    have hsum : (y * 16 + dy) * d.width + (x * 8 + k) =
        y * 16 * d.width + x * 8 + dy * d.width + k := by ring
    rw [hsum] at hdot
    rw [InFrame, fbCharBase_eq, hbase, bmod_small hsmall, ← Int.natCast_add, ← Int.natCast_add,
      ← Int.natCast_mul]
    exact ⟨Int.natCast_nonneg _, Int.ofNat_lt.mpr hdot⟩

/-! ## The cursor stays on the display -/

theorem line_lt (proper : d.Proper) : d.line < 16384 := by
  have hwidth := proper.width
  rw [line, cols]
  omega

theorem rows_lt (proper : d.Proper) : d.rows < 4096 := by
  have hheight := proper.height
  rw [rows]
  omega

theorem line_even (d : Display) : d.line % 2 = 0 := Nat.mul_mod_left _ 2

theorem size_even (d : Display) : d.size % 2 = 0 := by
  have hproduct : d.line * d.rows % 2 = 0 := by rw [Nat.mul_mod, line_even, Nat.zero_mul]
  rw [size]
  omega

theorem place_even (d : Display) (p : Cursor) : d.place p % 2 = 0 := by
  have hproduct : p.2 * d.line % 2 = 0 := by rw [Nat.mul_mod, line_even, Nat.mul_zero]
  rw [place]
  omega

theorem size_le_area (d : Display) : d.size ≤ d.rows * d.line := by
  rw [Nat.mul_comm]
  exact Nat.mod_le _ _

theorem column_lt (hx : x < d.cols) : 2 * x < d.line := by
  rw [line]
  omega

/-- A cursor that characters can leave. -/
structure Good (d : Display) (p : Cursor) : Prop where
  column : p.1 < d.cols
  row : p.2 * d.line < d.size + d.line ∨ p.2 + 1 = d.rows ∨ p.2 = d.rows

/-- A cursor at which a character is written. -/
structure Inside (d : Display) (p : Cursor) : Prop where
  column : p.1 < d.cols
  row : p.2 < d.rows
  place : d.place p < d.size
  below : p.2 * d.line < d.size ∨ p.2 + 1 = d.rows

theorem place_early (hx : x < d.cols) (roomy : d.Roomy) (proper : d.Proper)
    (hy : y * d.line < d.size + d.line) : d.place (x, y) = 2 * x + y * d.line := by
  have hcolumn := column_lt hx
  have hline := line_lt proper
  have hsize : d.size ≤ 32768 := roomy.size_le
  rw [place]
  exact Nat.mod_eq_of_lt (by dsimp only; omega)

theorem place_last (hx : x < d.cols) (line_le : d.line ≤ d.size) (hy : y + 1 = d.rows) :
    d.place (x, y) = 2 * x + (d.size - d.line) := by
  have hcolumn := column_lt hx
  have hproduct : y * d.line + d.line = d.line * d.rows := by
    rw [← hy]
    ring
  rw [size] at line_le ⊢
  rw [place]
  dsimp only
  omega

theorem place_beyond (hx : x < d.cols) (roomy : d.Roomy) (proper : d.Proper) :
    d.place (x, d.rows) = 2 * x + d.size := by
  have hcolumn := column_lt hx
  have hline := line_lt proper
  have hsize : d.size ≤ 32768 := roomy.size_le
  rw [size] at hsize ⊢
  rw [place]
  dsimp only
  rw [Nat.mul_comm d.rows]
  omega

theorem last_row (proper : d.Proper) : (d.rows + 65535) % 65536 + 1 = d.rows := by
  have hrows := rows_lt proper
  have hpos := proper.rows_pos
  omega

theorem ready_inside (proper : d.Proper) (roomy : d.Roomy) {p : Cursor} (good : d.Good p) :
    d.Inside (d.ready p) := by
  obtain ⟨x, y⟩ := p
  obtain ⟨hx, hy⟩ := good
  dsimp only at hx hy
  rw [ready]
  by_cases hfull : d.Full (x, y)
  · rw [if_pos hfull]
    have hlast := last_row proper
    have hline : 0 < d.line := Nat.mul_pos proper.columns (by decide)
    have hplace := place_last proper.columns roomy.line_le hlast
    have hle := roomy.line_le
    exact ⟨proper.columns, by dsimp only; omega, by omega, Or.inr hlast⟩
  · rw [if_neg hfull]
    have hplace : d.place (x, y) < d.size := by
      by_contra hlarge
      exact hfull (Or.inl (Nat.le_of_not_lt hlarge))
    rcases hy with hearly | hlast | hbeyond
    · rw [place_early hx roomy proper hearly] at hplace
      have hbelow : y * d.line < d.size := lt_of_le_of_lt (Nat.le_add_left _ _) hplace
      refine ⟨hx, ?_, ?_, Or.inl hbelow⟩
      · exact Nat.lt_of_mul_lt_mul_right (lt_of_lt_of_le hbelow (size_le_area d))
      · rw [place_early hx roomy proper hearly]
        exact hplace
    · exact ⟨hx, by dsimp only; omega, hplace, Or.inr hlast⟩
    · rw [hbeyond, place_beyond hx roomy proper] at hplace
      omega

/-- The cursor below one at which a character is written. -/
theorem good_below (proper : d.Proper) {p : Cursor} (inside : d.Inside p) :
    d.Good (0, (p.2 + 1) % 65536) := by
  have hrow := inside.row
  have hrows := rows_lt proper
  have hnext : (p.2 + 1) % 65536 = p.2 + 1 := by omega
  refine ⟨proper.columns, ?_⟩
  rw [hnext]
  dsimp only
  rcases inside.below with hbelow | hlast
  · left
    rw [Nat.add_mul, Nat.one_mul]
    omega
  · exact Or.inr (Or.inr hlast)

theorem good_of_inside {p : Cursor} (inside : d.Inside p) (hx : x < d.cols) : d.Good (x, p.2) := by
  refine ⟨hx, ?_⟩
  rcases inside.below with hbelow | hlast
  · exact Or.inl (by dsimp only; omega)
  · exact Or.inr (Or.inl hlast)

theorem good_next (proper : d.Proper) (roomy : d.Roomy) {p : Cursor} (good : d.Good p) (chr : Byte) :
    d.Good (d.next p chr) := by
  have hinside := ready_inside proper roomy good
  have hcolumn := hinside.column
  rw [next]
  split
  · exact good_of_inside hinside hinside.column
  split
  · exact good_below proper hinside
  split
  · exact good_below proper hinside
  · next hstay =>
    exact good_of_inside hinside (by omega)

theorem corner_bound (roomy : d.Roomy) (hx : x < d.cols) (hy : y < d.rows) :
    y * 16 * d.width + x * 8 < 2 ^ 31 := by
  have hrow : y * 16 * d.width ≤ (d.rows - 1) * 16 * d.width :=
    Nat.mul_le_mul_right _ (Nat.mul_le_mul_right _ (by omega))
  have hcorner := roomy.corner
  omega

theorem scrolls_of_roomy (proper : d.Proper) (roomy : d.Roomy) : d.Scrolls := by
  refine ⟨roomy.line_le, roomy.size_le, ?_⟩
  intro row hrow col hcol
  have hline : 0 < d.line := Nat.mul_pos proper.columns (by decide)
  have hend : (row + 1) * d.line ≤ d.size := (Nat.le_div_iff_mul_le hline).mp hrow
  have hrows : row < d.rows :=
    Nat.lt_of_mul_lt_mul_right (lt_of_lt_of_le (Nat.mul_lt_mul_of_pos_right (Nat.lt_succ_self row)
      hline) (le_trans hend (size_le_area d)))
  constructor
  · have hcell : 2 * (row * d.cols + col) + 1 < (row + 1) * d.line := by
      rw [line, Nat.add_mul, Nat.one_mul, ← Nat.mul_assoc]
      omega
    exact lt_of_lt_of_le (lt_of_lt_of_le hcell hend) roomy.size_le
  · exact (paintable_iff proper hcol hrows).mpr (corner_bound roomy hcol hrows)

theorem fine_of_good (proper : d.Proper) (roomy : d.Roomy) {p : Cursor} (good : d.Good p)
    (chr : Byte) : d.Fine p chr := by
  obtain ⟨hcolumn, hrow, hplace, -⟩ := ready_inside proper roomy good
  refine ⟨fun _ => scrolls_of_roomy proper roomy, fun _ _ => ⟨?_, ?_⟩⟩
  · have hsize := roomy.size_le
    have heven := size_even d
    have hplaceEven := place_even d (d.ready p)
    omega
  · exact (paintable_iff proper hcolumn hrow).mpr (corner_bound roomy hcolumn hrow)

/-! ## Runs that leave the buffers -/

theorem not_full {p : Cursor} (hplace : d.place p < d.size) (hrow : p.2 ≤ d.rows) :
    ¬ d.Full p := by
  rintro (hlarge | hbeyond)
  · exact absurd hplace (Nat.not_lt.mpr hlarge)
  · exact absurd hrow (Nat.not_le.mpr hbeyond)

theorem next_newline {p : Cursor} (free : ¬ d.Full p) : d.next p 10 = (0, (p.2 + 1) % 65536) := by
  rw [next, ready, if_neg free, if_neg (by decide), if_pos rfl]

theorem next_letter {p : Cursor} (hx : (d.ready p).1 + 1 < d.cols) (small : d.cols < 65536) :
    d.next p 65 = ((d.ready p).1 + 1, (d.ready p).2) := by
  have hcolumn : ((d.ready p).1 + 1) % 65536 = (d.ready p).1 + 1 := Nat.mod_eq_of_lt (by omega)
  rw [next, if_neg (by decide), if_neg (by decide), hcolumn, if_neg (by omega)]

theorem newlines (free : ∀ k < n, ¬ d.Full (0, k)) (small : n < 65536) :
    (List.replicate n 10).foldl d.next (0, 0) = (0, n) := by
  induction n with
  | zero => rfl
  | succ n ih =>
    rw [List.replicate_succ', List.foldl_append,
      ih (fun k hk => free k (Nat.lt_succ_of_lt hk)) (by omega), List.foldl_cons, List.foldl_nil,
      next_newline (free n (Nat.lt_succ_self n)), Nat.mod_eq_of_lt (by omega)]

/-- Letters fill the row of the cursor, which may be a new row. -/
theorem letters {p : Cursor} (first : d.ready p = (0, y)) (free : ∀ k, 0 < k → k < n → ¬ d.Full (k, y))
    (small : d.cols < 65536) (hn : n < d.cols) (pos : 0 < n) :
    (List.replicate n 65).foldl d.next p = (n, y) := by
  induction n with
  | zero => exact absurd pos (lt_irrefl 0)
  | succ n ih =>
    rw [List.replicate_succ', List.foldl_append, List.foldl_cons, List.foldl_nil]
    rcases Nat.eq_zero_or_pos n with rfl | hpos
    · rw [List.replicate_zero, List.foldl_nil, next_letter (by rw [first]; exact hn) small, first]
    · have hready : d.ready (n, y) = (n, y) := if_neg (free n hpos (Nat.lt_succ_self n))
      rw [ih (fun k hk hlt => free k hk (Nat.lt_succ_of_lt hlt)) (by omega) hpos,
        next_letter (by rw [hready]; exact hn) small, hready]

theorem letters_ready {p : Cursor} (first : d.ready p = (0, y))
    (free : ∀ k, 0 < k → k ≤ n → ¬ d.Full (k, y)) (small : d.cols < 65536) (hn : n < d.cols) :
    d.ready ((List.replicate n 65).foldl d.next p) = (n, y) := by
  rcases Nat.eq_zero_or_pos n with rfl | hpos
  · exact first
  · rw [letters first (fun k hk hlt => free k hk hlt.le) small hn hpos]
    exact if_neg (free n hpos le_rfl)

/-- All characters are written inside the buffers. -/
def Always (d : Display) : Prop := ∀ chars : List Byte, Allowed d.Fine d.next (0, 0) chars

theorem fine_after (always : d.Always) (chars : List Byte) (chr : Byte) :
    d.Fine (chars.foldl d.next (0, 0)) chr :=
  (allowed_append.mp (always (chars ++ [chr]))).2.1

theorem cols_lt (proper : d.Proper) : d.cols < 65536 := by
  have hline := line_lt proper
  rw [line] at hline
  omega

theorem place_top (proper : d.Proper) (hx : x < d.cols) : d.place (x, 0) = 2 * x := by
  have hcols := line_lt proper
  have hcolumn := column_lt hx
  rw [place]
  dsimp only
  omega

/-- On a display of less than a line the first row is full too early. -/
theorem line_le_of_always (proper : d.Proper) (always : d.Always) : d.line ≤ d.size := by
  by_contra hshort
  have heven := size_even d
  have hcolumn : d.size / 2 < d.cols := by
    rw [line] at hshort
    omega
  have hfull : ∀ p : Cursor, p = (d.size / 2, 0) → d.Full p := by
    rintro p rfl
    left
    rw [place_top proper hcolumn]
    omega
  have hcursor : (List.replicate (d.size / 2) 65).foldl d.next (0, 0) = (d.size / 2, 0) := by
    rcases Nat.eq_zero_or_pos (d.size / 2) with hzero | hpos
    · rw [hzero]
      rfl
    · have hfree : ∀ k, k < d.size / 2 → ¬ d.Full (k, 0) := by
        intro k hk
        refine not_full ?_ (Nat.zero_le _)
        rw [place_top proper (by omega)]
        omega
      exact letters (if_neg (hfree 0 hpos)) (fun k _ hk => hfree k hk) (cols_lt proper) hcolumn hpos
  have hfine := fine_after always (List.replicate (d.size / 2) 65) 65
  exact hshort (hfine.1 (hfull _ hcursor)).1

theorem place_of_lt (h : 2 * x + y * d.line < 65536) : d.place (x, y) = 2 * x + y * d.line :=
  Nat.mod_eq_of_lt h

/-- The character at the end of a back buffer that is too small. -/
theorem not_fine_beyond {row m : Nat} (proper : d.Proper) (end_eq : row * d.line + 2 * m = backbufSize)
    (hcolumn : m < d.cols) (large : backbufSize < d.size) :
    ¬ d.Fine ((List.replicate row (10 : Byte) ++ List.replicate m 65).foldl d.next (0, 0)) 65 := by
  have hrows := rows_lt proper
  have harea := size_le_area d
  have hsize := size_lt d
  rw [backbufSize] at end_eq large
  have hrow : row < d.rows :=
    Nat.lt_of_mul_lt_mul_right (show row * d.line < d.rows * d.line by omega)
  have hfree : ∀ k ≤ m, ∀ j ≤ row, ¬ d.Full (k, j) := by
    intro k hk j hj
    have hproduct : j * d.line ≤ row * d.line := Nat.mul_le_mul_right _ hj
    refine not_full ?_ (by dsimp only; omega)
    rw [place_of_lt (by omega)]
    omega
  have hnewlines : (List.replicate row 10).foldl d.next (0, 0) = (0, row) :=
    newlines (fun k hk => hfree 0 (Nat.zero_le _) k hk.le) (by omega)
  have hready := letters_ready (if_neg (hfree 0 (Nat.zero_le _) row le_rfl))
    (fun k _ hk => hfree k hk row le_rfl) (cols_lt proper) hcolumn
  intro hfine
  rw [List.foldl_append, hnewlines] at hfine
  have hinside := (hfine.2 (by decide) (by decide)).1
  rw [hready, place_of_lt (by omega), backbufSize] at hinside
  omega

theorem size_le_of_always (proper : d.Proper) (always : d.Always) : d.size ≤ backbufSize := by
  by_contra hlarge
  have hline : 0 < d.line := Nat.mul_pos proper.columns (by decide)
  have hmod := Nat.mod_lt backbufSize hline
  have hsplit := Nat.div_add_mod' backbufSize d.line
  have heven : backbufSize % d.line % 2 = 0 := by
    rw [Nat.mod_mod_of_dvd _ (Nat.dvd_of_mod_eq_zero (line_even d))]
    rfl
  have hcolumn : backbufSize % d.line / 2 < d.cols := by
    rw [line] at hmod ⊢
    omega
  have hend : backbufSize / d.line * d.line + 2 * (backbufSize % d.line / 2) = backbufSize := by
    omega
  exact not_fine_beyond proper hend hcolumn (Nat.lt_of_not_le hlarge) (fine_after always _ 65)

/-- The last character of the last row. -/
theorem corner_of_always (proper : d.Proper) (always : d.Always) :
    (d.rows - 1) * 16 * d.width + (d.cols - 1) * 8 < 2 ^ 31 := by
  have hle := line_le_of_always proper always
  have hsize : d.size ≤ 32768 := size_le_of_always proper always
  have hline : 0 < d.line := Nat.mul_pos proper.columns (by decide)
  have hrows := rows_lt proper
  have hpos := proper.rows_pos
  have hcols := proper.columns
  have hlast := last_row proper
  -- the first row that is below the size
  have hrow : ∃ row ≤ d.rows, d.size ≤ row * d.line ∧ ∀ k < row, k * d.line < d.size := by
    have hexists : ∃ row, d.size ≤ row * d.line := ⟨d.rows, size_le_area d⟩
    refine ⟨Nat.find hexists, Nat.find_min' hexists (size_le_area d), Nat.find_spec hexists, ?_⟩
    intro k hk
    exact Nat.lt_of_not_le (Nat.find_min hexists hk)
  obtain ⟨row, hrow, hbelow, habove⟩ := hrow
  have hnewlines : (List.replicate row 10).foldl d.next (0, 0) = (0, row) := by
    refine newlines ?_ (by omega)
    intro k hk
    have hk' := habove k hk
    refine not_full ?_ (by dsimp only; omega)
    rw [place_of_lt (by omega)]
    omega
  have hfull : d.Full (0, row) := by
    have hlineLt := line_lt proper
    have hprevious : row * d.line < d.size + d.line := by
      rcases row with _ | row
      · omega
      · have hk := habove row (Nat.lt_succ_self row)
        rw [Nat.add_mul, Nat.one_mul]
        omega
    left
    rw [place_of_lt (by omega)]
    omega
  have hfree : ∀ k, 0 < k → k ≤ d.cols - 1 → ¬ d.Full (k, (d.rows + 65535) % 65536) := by
    intro k hk hlt
    have hcolumn : k < d.cols := by omega
    have hcolumnLine := column_lt hcolumn
    refine not_full ?_ (by dsimp only; omega)
    rw [place_last hcolumn hle hlast]
    omega
  have hready := letters_ready (if_pos hfull) hfree (cols_lt proper) (show d.cols - 1 < d.cols by omega)
  have hfine := fine_after always (List.replicate row 10 ++ List.replicate (d.cols - 1) 65) 65
  rw [List.foldl_append, hnewlines] at hfine
  have hpaintable := (hfine.2 (by decide) (by decide)).2
  rw [hready] at hpaintable
  have hbound := (paintable_iff proper (by dsimp only; omega) (by dsimp only; omega)).mp hpaintable
  have hrowEq : (d.rows + 65535) % 65536 = d.rows - 1 := by omega
  rw [hrowEq] at hbound
  exact hbound

theorem always_iff (proper : d.Proper) : d.Always ↔ d.Roomy := by
  constructor
  · intro always
    exact ⟨line_le_of_always proper always, size_le_of_always proper always,
      corner_of_always proper always⟩
  · intro roomy chars
    have hkept : ∀ p chr, d.Good p → d.Fine p chr ∧ d.Good (d.next p chr) := fun p chr good =>
      ⟨fine_of_good proper roomy good chr, good_next proper roomy good chr⟩
    have hline : 0 < d.line := Nat.mul_pos proper.columns (by decide)
    exact allowed_of_invariant hkept ⟨proper.columns, Or.inl (by dsimp only; omega)⟩

end Display

/-- The display of `debugterm_init`. -/
theorem proper_init {width height : BitVec 16} (hwidth : 8 ≤ width.toNat)
    (hheight : 16 ≤ height.toNat) : Display.Proper ⟨width.toNat, height.toNat⟩ :=
  ⟨width.isLt, height.isLt, Nat.div_pos hwidth (by decide), Nat.div_pos hheight (by decide)⟩

/-- A sequence of characters is written inside the buffers just if the cursor allows each. -/
theorem debugchars_iff (font : Nat → Byte) (fb : Nat → BitVec 32) {width height : BitVec 16}
    (hwidth : 8 ≤ width.toNat) (hheight : 16 ≤ height.toNat) (chars : List Byte) :
    (∃ t, debugchars font (debugtermInit fb width height) chars = some t) ↔
      Allowed (Display.Fine ⟨width.toNat, height.toNat⟩) (Display.next ⟨width.toNat, height.toNat⟩)
        (0, 0) chars := by
  have hproper := proper_init hwidth hheight
  have hline := Display.line_lt hproper
  exact (debugcharNp_tracks font hproper.columns (by omega)).run_iff (sized_init fb)

/-- All sequences of characters stay inside the buffers just on a display that is roomy. -/
theorem debugchars_inside_iff (font : Nat → Byte) (fb : Nat → BitVec 32) {width height : BitVec 16}
    (hwidth : 8 ≤ width.toNat) (hheight : 16 ≤ height.toNat) :
    (∀ chars, ∃ t, debugchars font (debugtermInit fb width height) chars = some t) ↔
      Display.Roomy ⟨width.toNat, height.toNat⟩ := by
  rw [← Display.always_iff (proper_init hwidth hheight)]
  exact forall_congr' fun chars => debugchars_iff font fb hwidth hheight chars

/-- Rows of 80 columns, and 25 of them. -/
theorem debugchars_inside_iff_text :
    (∀ chars, ∃ t, debugchars (fun _ => 0) (debugtermInit (fun _ => 0) 640 400) chars = some t) ↔
      Display.Roomy ⟨(640 : BitVec 16).toNat, (400 : BitVec 16).toNat⟩ :=
  debugchars_inside_iff _ _ (by decide) (by decide)

example : Display.Roomy ⟨1920, 1080⟩ ∧ ¬ Display.Roomy ⟨2560, 1440⟩ := by decide

/-- On a display of 320 columns and 90 rows, the last of these characters is written at the end of
the back buffer, in column 64 of row 51. -/
theorem wide_display_overruns :
    ¬ ∃ t, debugchars (fun _ => 0) (debugtermInit (fun _ => 0) 2560 1440)
      (List.replicate 51 10 ++ List.replicate 64 65 ++ [65]) = some t := by
  rw [debugchars_iff _ _ (by decide) (by decide)]
  intro hallowed
  have hfine := (allowed_append.mp hallowed).2.1
  have hproper := @proper_init 2560 1440 (by decide) (by decide)
  have hend : 51 * Display.line ⟨2560, 1440⟩ + 2 * 64 = backbufSize := by decide
  have hlarge : backbufSize < Display.size ⟨2560, 1440⟩ := by decide
  exact Display.not_fine_beyond hproper hend (by decide) hlarge hfine

end DebugTerm

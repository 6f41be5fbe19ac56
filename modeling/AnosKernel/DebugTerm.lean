import Mathlib.Data.BitVec
import Mathlib.Logic.Function.Basic
import AnosKernel.Lib.Checked

/-!
# The graphical debug terminal

`kernel/gdebugterm.c`. A character is kept in the back buffer and painted on the frame buffer; on a
full screen the back buffer is moved up by a line first. The variables of the terminal are 16-bit
numbers, and an access outside of the back buffer or the frame buffer is a fault.
-/

namespace DebugTerm

open Checked

abbrev Byte := BitVec 8

/-! ## The terminal -/

def gdebugtermFontWidth : Nat := 8
def gdebugtermFontHeight : Nat := 16

/-- `sizeof(backbuf)`. -/
def backbufSize : Nat := 32768

structure Terminal where
  fb : Nat → BitVec 32
  fbPhysWidth : Nat
  fbPhysHeight : Nat
  backbuf : Nat → Byte
  lineWidthBytes : Nat
  displayMax : Nat
  rowCount : Nat
  colCount : Nat
  logicalX : Nat
  logicalY : Nat
  attr : Byte

/-- Before the first call. -/
def boot (fb : Nat → BitVec 32) : Terminal where
  fb := fb
  fbPhysWidth := 0
  fbPhysHeight := 0
  backbuf := fun _ => 0
  lineWidthBytes := 0
  displayMax := 0
  rowCount := 0
  colCount := 0
  logicalX := 0
  logicalY := 0
  attr := 0

def debugtermReinit (t : Terminal) (physWidth physHeight : BitVec 16) : Terminal :=
  let rowCount := physHeight.toNat / gdebugtermFontHeight
  let colCount := physWidth.toNat / gdebugtermFontWidth
  let lineWidthBytes := colCount * 2 % 65536
  { t with
    fbPhysWidth := physWidth.toNat
    fbPhysHeight := physHeight.toNat
    rowCount := rowCount
    colCount := colCount
    lineWidthBytes := lineWidthBytes
    displayMax := lineWidthBytes * rowCount % 65536
    attr := 7 }

/-- What `debugterm_init` leaves for the characters of the banner. -/
def debugtermInit (fb : Nat → BitVec 32) (physWidth physHeight : BitVec 16) : Terminal :=
  debugtermReinit (boot fb) physWidth physHeight

/-! ## Painting -/

def colors : List (BitVec 32) :=
  [0x00000000, 0x000000aa, 0x0000aa00, 0x0000aaaa, 0x00aa0000, 0x00aa00aa, 0x00aa5500, 0x00bbbbbb,
    0x00707070, 0x000000ee, 0x0000ee00, 0x0000eeee, 0x00ee0000, 0x00ee00ee, 0x00ee7700, 0x00eeeeee]

def writePixel (t : Terminal) (i : Int) (color : BitVec 32) : Option Terminal :=
  if 0 ≤ i ∧ i < t.fbPhysWidth * t.fbPhysHeight then
    some { t with fb := Function.update t.fb i.toNat color }
  else none

/-- One row of dots of a character, from the pixel at `base` on. -/
def paintRow (fontByte : Byte) (fgColor bgColor : BitVec 32) (base : Int) (t : Terminal) :
    Option Terminal :=
  (List.range 8).foldlM (fun t (n : Nat) =>
    writePixel t (base + n) (if fontByte.getMsbD n then fgColor else bgColor)) t

/-- The first pixel of a character, by an `int`. -/
def fbCharBase (fbPhysWidth fbXBase fbYBase : Nat) : Int :=
  Int.bmod (fbXBase + fbYBase * fbPhysWidth : Nat) (2 ^ 32)

/-- The other pixels are reached by a pointer. -/
def paintChar (font : Nat → Byte) (t : Terminal) (c attr : Byte) (fbXBase fbYBase : Nat) :
    Option Terminal :=
  let fgColor := colors.getD (attr &&& 0xf).toNat 0
  let bgColor := colors.getD (attr >>> 4).toNat 0
  (List.range gdebugtermFontHeight).foldlM (fun t (dy : Nat) =>
    paintRow (font (c.toNat * gdebugtermFontHeight + dy)) fgColor bgColor
      (fbCharBase t.fbPhysWidth fbXBase fbYBase + (dy * t.fbPhysWidth : Nat)) t) t

/-- The cell of the back buffer at a row and a column. -/
def repaintCell (font : Nat → Byte) (row : Nat) (t : Terminal) (col : Nat) : Option Terminal :=
  let buf := 2 * (row * t.colCount + col)
  if buf + 1 < backbufSize then
    paintChar font t (t.backbuf buf) (t.backbuf (buf + 1)) (col * gdebugtermFontWidth)
      (row * gdebugtermFontHeight)
  else none

def repaint (font : Nat → Byte) (t : Terminal) : Option Terminal :=
  let bytesPerRow := t.colCount * 2
  if bytesPerRow = 0 then none
  else
    (List.range (t.displayMax / bytesPerRow)).foldlM (fun t row =>
      (List.range t.colCount).foldlM (repaintCell font row) t) t

/-! ## Scrolling -/

/-- `BACKBUF_PHYSICAL`. -/
def Terminal.physical (t : Terminal) (x y : Nat) : Nat := 2 * x + y * t.lineWidthBytes

/-- Blanks of two bytes, `count` times four of them. -/
def fill64 (backbuf : Nat → Byte) (start count : Nat) : Nat → Byte := fun i =>
  if start ≤ i ∧ i < start + 8 * count then (if (i - start) % 2 = 0 then 0x20 else 0x08)
  else backbuf i

/-- The terminal after the move, and the place of the next character. -/
def scroll (t : Terminal) : Option (Terminal × Nat) :=
  -- the difference is an `int`, and a `size_t` in the call of `memmove`
  let length := (((t.displayMax : Int) - t.lineWidthBytes) % 2 ^ 64).toNat
  if t.lineWidthBytes + length ≤ backbufSize then
    let moved := fun i =>
      if i < length then t.backbuf (t.lineWidthBytes + i) else t.backbuf i
    let p64 := t.displayMax - t.lineWidthBytes
    if p64 + 8 * (t.lineWidthBytes / 8) ≤ backbufSize then
      let t := { t with
        backbuf := fill64 moved p64 (t.lineWidthBytes / 8)
        logicalX := 0
        logicalY := (t.rowCount + 65535) % 65536 }
      some (t, t.physical t.logicalX t.logicalY % 65536)
    else none
  else none

/-- The terminal that is ready for a character, and the place of it. -/
def makeRoom (font : Nat → Byte) (t : Terminal) : Option (Terminal × Nat) :=
  let phys := t.physical t.logicalX t.logicalY % 65536
  if phys ≥ t.displayMax ∨ t.logicalY > t.rowCount then
    match scroll t with
    | none => none
    | some (t, phys) => (repaint font t).map fun t => (t, phys)
  else some (t, phys)

/-- `logical_x` and `logical_y` after a character. -/
def advance (t : Terminal) : Terminal :=
  let x := (t.logicalX + 1) % 65536
  if x ≥ t.colCount then { t with logicalX := 0, logicalY := (t.logicalY + 1) % 65536 }
  else { t with logicalX := x }

def debugcharNp (font : Nat → Byte) (t : Terminal) (chr : Byte) : Option Terminal :=
  match makeRoom font t with
  | none => none
  | some (t, phys) =>
    if chr = 0 then some t
    else if chr = 10 then
      some { t with logicalX := 0, logicalY := (t.logicalY + 1) % 65536 }
    else if phys + 1 < backbufSize then
      let t := { t with
        backbuf := Function.update (Function.update t.backbuf phys chr) (phys + 1) t.attr }
      (paintChar font t chr t.attr (t.logicalX * gdebugtermFontWidth)
        (t.logicalY * gdebugtermFontHeight)).map advance
    else none

/-- A sequence of characters. -/
def debugchars (font : Nat → Byte) (t : Terminal) (chars : List Byte) : Option Terminal :=
  chars.foldlM (debugcharNp font) t

/-! ## What painting does -/

/-- Only the frame buffer may differ. -/
def Painted (t t' : Terminal) : Prop := ∃ fb, t' = { t with fb := fb }

/-- From terminals that differ from `t₀` only in the frame buffer, it is possible on a condition,
and leaves one. -/
structure Paints (t₀ : Terminal) (fine : Prop) (paint : Terminal → Option Terminal) : Prop where
  possible : ∀ t, Painted t₀ t → fine → ∃ t', paint t = some t'
  effect : ∀ t t', Painted t₀ t → paint t = some t' → fine ∧ Painted t₀ t'

section Painting

variable {t₀ t t' : Terminal} {font : Nat → Byte}

theorem Painted.refl (t : Terminal) : Painted t t := ⟨t.fb, rfl⟩

theorem Paints.loop {α : Type} {fine : α → Prop} {step : Terminal → α → Option Terminal}
    (paints : ∀ a, Paints t₀ (fine a) fun t => step t a) (as : List α) :
    Paints t₀ (∀ a ∈ as, fine a) fun t => as.foldlM step t := by
  have htracks : Tracks step (Painted t₀) (fun _ => ()) (fun _ a => fine a) (fun _ _ => ()) := by
    constructor
    · intro t a ht ha
      exact (paints a).possible t ht ha
    · intro t a t' ht hstep
      obtain ⟨ha, ht'⟩ := (paints a).effect t t' ht hstep
      exact ⟨ha, ht', rfl⟩
  constructor
  · intro t ht hall
    exact htracks.run_possible ht (allowed_unit.mpr hall)
  · intro t t' ht hrun
    obtain ⟨hallowed, ht', -⟩ := htracks.run_effect ht hrun
    exact ⟨allowed_unit.mp hallowed, ht'⟩

/-- A pixel of the frame buffer. -/
def InFrame (width height : Nat) (i : Int) : Prop := 0 ≤ i ∧ i < width * height

theorem paints_writePixel (t₀ : Terminal) (i : Int) (color : BitVec 32) :
    Paints t₀ (InFrame t₀.fbPhysWidth t₀.fbPhysHeight i) fun t => writePixel t i color := by
  constructor
  · rintro t ⟨fb, rfl⟩ hi
    exact ⟨_, if_pos hi⟩
  · rintro t t' ⟨fb, rfl⟩ h
    rw [writePixel] at h
    split at h
    · next hi =>
      cases h
      exact ⟨hi, _, rfl⟩
    · cases h

theorem paints_paintRow (t₀ : Terminal) (fontByte : Byte) (fgColor bgColor : BitVec 32)
    (base : Int) :
    Paints t₀ (∀ n ∈ List.range 8, InFrame t₀.fbPhysWidth t₀.fbPhysHeight (base + n))
      (paintRow fontByte fgColor bgColor base) :=
  @Paints.loop t₀ Nat _ (fun t (n : Nat) =>
    writePixel t (base + n) (if fontByte.getMsbD n then fgColor else bgColor))
    (fun n => paints_writePixel t₀ (base + n) _) (List.range 8)

/-- All pixels of the character at a row and a column. -/
def Paintable (width height x y : Nat) : Prop :=
  ∀ dy ∈ List.range gdebugtermFontHeight, ∀ n ∈ List.range 8,
    InFrame width height
      (fbCharBase width (x * gdebugtermFontWidth) (y * gdebugtermFontHeight) + (dy * width : Nat) + n)

theorem paints_paintChar (t₀ : Terminal) (c attr : Byte) (x y : Nat) :
    Paints t₀ (Paintable t₀.fbPhysWidth t₀.fbPhysHeight x y) fun t =>
      paintChar font t c attr (x * gdebugtermFontWidth) (y * gdebugtermFontHeight) := by
  -- the width is read from the terminal again for each row
  have hrow : ∀ dy : Nat, Paints t₀
      (∀ n ∈ List.range 8, InFrame t₀.fbPhysWidth t₀.fbPhysHeight
        (fbCharBase t₀.fbPhysWidth (x * gdebugtermFontWidth) (y * gdebugtermFontHeight) +
          (dy * t₀.fbPhysWidth : Nat) + n))
      fun t => paintRow (font (c.toNat * gdebugtermFontHeight + dy))
        (colors.getD (attr &&& 0xf).toNat 0) (colors.getD (attr >>> 4).toNat 0)
        (fbCharBase t.fbPhysWidth (x * gdebugtermFontWidth) (y * gdebugtermFontHeight) +
          (dy * t.fbPhysWidth : Nat)) t := by
    intro dy
    have hpaints := fun base => paints_paintRow t₀ (font (c.toNat * gdebugtermFontHeight + dy))
      (colors.getD (attr &&& 0xf).toNat 0) (colors.getD (attr >>> 4).toNat 0) base
    constructor
    · rintro t ⟨fb, rfl⟩ hfine
      exact (hpaints _).possible _ ⟨fb, rfl⟩ hfine
    · rintro t t' ⟨fb, rfl⟩ h
      exact (hpaints _).effect _ _ ⟨fb, rfl⟩ h
  exact Paints.loop hrow (List.range gdebugtermFontHeight)

/-- The cell is in the back buffer, and its character can be painted. -/
def Repaintable (t : Terminal) (row col : Nat) : Prop :=
  2 * (row * t.colCount + col) + 1 < backbufSize ∧ Paintable t.fbPhysWidth t.fbPhysHeight col row

theorem paints_repaintCell (t₀ : Terminal) (row col : Nat) :
    Paints t₀ (Repaintable t₀ row col) fun t => repaintCell font row t col := by
  constructor
  · rintro t ⟨fb, rfl⟩ ⟨hinside, hfine⟩
    rw [repaintCell]
    dsimp only
    rw [if_pos hinside]
    exact (paints_paintChar t₀ _ _ col row).possible _ ⟨fb, rfl⟩ hfine
  · rintro t t' ⟨fb, rfl⟩ h
    rw [repaintCell] at h
    dsimp only at h
    split at h
    · next hinside =>
      obtain ⟨hfine, hpainted⟩ := (paints_paintChar t₀ _ _ col row).effect _ _ ⟨fb, rfl⟩ h
      exact ⟨⟨hinside, hfine⟩, hpainted⟩
    · cases h

theorem paints_repaint (columns : 0 < t₀.colCount) :
    Paints t₀ (∀ row ∈ List.range (t₀.displayMax / (t₀.colCount * 2)),
      ∀ col ∈ List.range t₀.colCount, Repaintable t₀ row col) (repaint font) := by
  have hrow : ∀ row, Paints t₀ (∀ col ∈ List.range t₀.colCount, Repaintable t₀ row col)
      fun t => (List.range t.colCount).foldlM (repaintCell font row) t := by
    intro row
    have hloop := @Paints.loop t₀ Nat _ (repaintCell font row) (paints_repaintCell t₀ row)
      (List.range t₀.colCount)
    constructor
    · rintro t ⟨fb, rfl⟩ hfine
      exact hloop.possible _ ⟨fb, rfl⟩ hfine
    · rintro t t' ⟨fb, rfl⟩ h
      exact hloop.effect _ _ ⟨fb, rfl⟩ h
  have hloop := Paints.loop hrow (List.range (t₀.displayMax / (t₀.colCount * 2)))
  have hcolumns : t₀.colCount * 2 ≠ 0 := by omega
  constructor
  · rintro t ⟨fb, rfl⟩ hfine
    rw [repaint]
    dsimp only
    rw [if_neg hcolumns]
    exact hloop.possible _ ⟨fb, rfl⟩ hfine
  · rintro t t' ⟨fb, rfl⟩ h
    rw [repaint] at h
    dsimp only at h
    rw [if_neg hcolumns] at h
    exact hloop.effect _ _ ⟨fb, rfl⟩ h

end Painting

/-! ## The cursor

What becomes of `logical_x` and `logical_y`, and whether a character is written inside the buffers,
does not depend on what is on the display. -/

/-- The size of a display, in pixels. -/
structure Display where
  width : Nat
  height : Nat

namespace Display

def cols (d : Display) : Nat := d.width / 8
def rows (d : Display) : Nat := d.height / 16
def line (d : Display) : Nat := d.cols * 2
/-- `display_max`. -/
def size (d : Display) : Nat := d.line * d.rows % 65536

/-- `logical_x` and `logical_y`. -/
abbrev Cursor := Nat × Nat

variable (d : Display)

def place (p : Cursor) : Nat := (2 * p.1 + p.2 * d.line) % 65536

def Full (p : Cursor) : Prop := d.place p ≥ d.size ∨ p.2 > d.rows

instance (p : Cursor) : Decidable (d.Full p) := inferInstanceAs (Decidable (_ ∨ _))

/-- The cursor at which the next character is written. -/
def ready (p : Cursor) : Cursor := if d.Full p then (0, (d.rows + 65535) % 65536) else p

def next (p : Cursor) (chr : Byte) : Cursor :=
  let p := d.ready p
  if chr = 0 then p
  else if chr = 10 then (0, (p.2 + 1) % 65536)
  else if (p.1 + 1) % 65536 ≥ d.cols then (0, (p.2 + 1) % 65536)
  else ((p.1 + 1) % 65536, p.2)

/-- Moving up stays in the back buffer, and so does painting it again in the frame buffer. -/
def Scrolls : Prop :=
  d.line ≤ d.size ∧ d.size ≤ backbufSize ∧
    ∀ row < d.size / d.line, ∀ col < d.cols,
      2 * (row * d.cols + col) + 1 < backbufSize ∧ Paintable d.width d.height col row

/-- All accesses for a character are inside the buffers. -/
def Fine (p : Cursor) (chr : Byte) : Prop :=
  (d.Full p → d.Scrolls) ∧
    (chr ≠ 0 → chr ≠ 10 → d.place (d.ready p) + 1 < backbufSize ∧
      Paintable d.width d.height (d.ready p).1 (d.ready p).2)

end Display

/-- The terminal was set up for this display. -/
structure Sized (d : Display) (t : Terminal) : Prop where
  width : t.fbPhysWidth = d.width
  height : t.fbPhysHeight = d.height
  cols : t.colCount = d.cols
  rows : t.rowCount = d.rows
  line : t.lineWidthBytes = d.line
  size : t.displayMax = d.size

def Terminal.cursor (t : Terminal) : Display.Cursor := (t.logicalX, t.logicalY)

section Steps

variable {d : Display} {t t' : Terminal} {font : Nat → Byte} {phys : Nat} {chr : Byte}

theorem sized_init {width height : BitVec 16} (fb : Nat → BitVec 32) :
    Sized ⟨width.toNat, height.toNat⟩ (debugtermInit fb width height) := by
  have hline : width.toNat / 8 * 2 % 65536 = width.toNat / 8 * 2 :=
    Nat.mod_eq_of_lt (by omega)
  refine ⟨rfl, rfl, rfl, rfl, hline, ?_⟩
  show width.toNat / 8 * 2 % 65536 * (height.toNat / 16) % 65536 = _
  rw [hline]
  rfl

theorem Sized.place (sized : Sized d t) : t.physical t.logicalX t.logicalY % 65536 =
    d.place t.cursor := by
  rw [Terminal.physical, sized.line]
  rfl

/-- The length of the move is far too large where it is negative. -/
theorem length_move {line size : Nat} (line_lt : line < 65536) (size_lt : size < 65536) :
    line + (((size : Int) - line) % 2 ^ 64).toNat ≤ backbufSize ↔
      line ≤ size ∧ size ≤ backbufSize := by
  rw [backbufSize]
  omega

/-- The lines move up by one, and blanks are written over the last one. -/
def moveUp (d : Display) (backbuf : Nat → Byte) : Nat → Byte :=
  fill64 (fun i => if i < d.size - d.line then backbuf (d.line + i) else backbuf i)
    (d.size - d.line) (d.line / 8)

theorem size_lt (d : Display) : d.size < 65536 := Nat.mod_lt _ (by decide)

/-- A terminal after its lines have moved up, not painted yet. -/
def scrolled (d : Display) (t : Terminal) : Terminal :=
  { t with
    backbuf := moveUp d t.backbuf
    logicalX := 0
    logicalY := (d.rows + 65535) % 65536 }

theorem scrolled_sized (sized : Sized d t) : Sized d (scrolled d t) := by
  obtain ⟨hwidth, hheight, hcols, hrows, hline, hsize⟩ := sized
  exact ⟨hwidth, hheight, hcols, hrows, hline, hsize⟩

theorem scroll_eq (sized : Sized d t) (line_lt : d.line < 65536) :
    scroll t = if d.line ≤ d.size ∧ d.size ≤ backbufSize then
      some (scrolled d t, d.place (0, (d.rows + 65535) % 65536)) else none := by
  have hmove := length_move line_lt (size_lt d)
  obtain ⟨fb, width, height, backbuf, line, size, rows, cols, x, y, attr⟩ := t
  obtain ⟨-, -, -, hrows, hline, hsize⟩ := sized
  dsimp only at hrows hline hsize
  subst hrows hline hsize
  rw [scroll]
  dsimp only
  by_cases hinside : d.line ≤ d.size ∧ d.size ≤ backbufSize
  · have hlength : (((d.size : Int) - d.line) % 2 ^ 64).toNat = d.size - d.line := by
      have hsize := size_lt d
      omega
    rw [if_pos (hmove.mpr hinside), if_pos hinside, if_pos (by omega), hlength]
    rfl
  · rw [if_neg (mt hmove.mp hinside), if_neg hinside]

/-- What is left for a character that is about to be written. -/
structure Room (d : Display) (t t' : Terminal) (phys : Nat) : Prop where
  fine : d.Full t.cursor → d.Scrolls
  sized : Sized d t'
  cursor : t'.cursor = d.ready t.cursor
  place : phys = d.place t'.cursor
  attr : t'.attr = t.attr
  backbuf : t'.backbuf = if d.Full t.cursor then moveUp d t.backbuf else t.backbuf

theorem repaint_scrolled (sized : Sized d t) (columns : 0 < d.cols) :
    Paints (scrolled d t) (∀ row < d.size / d.line, ∀ col < d.cols,
      2 * (row * d.cols + col) + 1 < backbufSize ∧ Paintable d.width d.height col row)
      (repaint font) := by
  have hsized := scrolled_sized sized
  have hpaints := @paints_repaint (scrolled d t) font (by rw [hsized.cols]; exact columns)
  have hfine : (∀ row ∈ List.range ((scrolled d t).displayMax / ((scrolled d t).colCount * 2)),
      ∀ col ∈ List.range (scrolled d t).colCount, Repaintable (scrolled d t) row col) ↔
      ∀ row < d.size / d.line, ∀ col < d.cols,
        2 * (row * d.cols + col) + 1 < backbufSize ∧ Paintable d.width d.height col row := by
    simp only [List.mem_range, Repaintable, hsized.cols, hsized.size, hsized.width, hsized.height]
    rfl
  rwa [hfine] at hpaints

theorem makeRoom_effect (sized : Sized d t) (columns : 0 < d.cols) (line_lt : d.line < 65536)
    (h : makeRoom font t = some (t', phys)) : Room d t t' phys := by
  rw [makeRoom, sized.place, sized.size, sized.rows] at h
  by_cases hfull : d.Full t.cursor
  · have hplace : d.place t.cursor ≥ d.size ∨ t.logicalY > d.rows := hfull
    rw [if_pos hplace, scroll_eq sized line_lt] at h
    by_cases hinside : d.line ≤ d.size ∧ d.size ≤ backbufSize
    · rw [if_pos hinside] at h
      dsimp only at h
      obtain ⟨t₁, hrepaint, heq⟩ := Option.map_eq_some_iff.mp h
      cases heq
      obtain ⟨hcells, fb, rfl⟩ := (repaint_scrolled sized columns).effect _ _ (Painted.refl _) hrepaint
      have hsized := scrolled_sized sized
      refine ⟨fun _ => ⟨hinside.1, hinside.2, hcells⟩, ?_, ?_, rfl, rfl, ?_⟩
      · exact ⟨hsized.width, hsized.height, hsized.cols, hsized.rows, hsized.line, hsized.size⟩
      · rw [Display.ready, if_pos hfull]
        rfl
      · rw [if_pos hfull]
        rfl
    · rw [if_neg hinside] at h
      cases h
  · have hplace : ¬ (d.place t.cursor ≥ d.size ∨ t.logicalY > d.rows) := hfull
    rw [if_neg hplace] at h
    cases h
    refine ⟨fun hf => absurd hf hfull, sized, ?_, rfl, rfl, ?_⟩
    · rw [Display.ready, if_neg hfull]
    · rw [if_neg hfull]

theorem makeRoom_possible (sized : Sized d t) (columns : 0 < d.cols) (line_lt : d.line < 65536)
    (fine : d.Full t.cursor → d.Scrolls) : ∃ t' phys, makeRoom font t = some (t', phys) := by
  rw [makeRoom, sized.place, sized.size, sized.rows]
  by_cases hfull : d.Full t.cursor
  · have hplace : d.place t.cursor ≥ d.size ∨ t.logicalY > d.rows := hfull
    obtain ⟨hline, hsize, hcells⟩ := fine hfull
    obtain ⟨t', hrepaint⟩ :=
      (@repaint_scrolled _ _ font sized columns).possible _ (Painted.refl _) hcells
    rw [if_pos hplace, scroll_eq sized line_lt, if_pos ⟨hline, hsize⟩]
    dsimp only
    rw [hrepaint]
    exact ⟨_, _, rfl⟩
  · have hplace : ¬ (d.place t.cursor ≥ d.size ∨ t.logicalY > d.rows) := hfull
    rw [if_neg hplace]
    exact ⟨_, _, rfl⟩

/-- The back buffer with a character and the attribute at its place. -/
def written (backbuf : Nat → Byte) (phys : Nat) (chr attr : Byte) : Nat → Byte :=
  Function.update (Function.update backbuf phys chr) (phys + 1) attr

/-- What a character does once there is room for it. -/
inductive Wrote (d : Display) (t : Terminal) (phys : Nat) (chr : Byte) : Terminal → Prop
  | nul (isNul : chr = 0) : Wrote d t phys chr t
  | newline (isNewline : chr = 10) :
      Wrote d t phys chr { t with logicalX := 0, logicalY := (t.logicalY + 1) % 65536 }
  | cell (fb : Nat → BitVec 32) (notNul : chr ≠ 0) (notNewline : chr ≠ 10)
      (inside : phys + 1 < backbufSize)
      (paintable : Paintable d.width d.height t.logicalX t.logicalY) :
      Wrote d t phys chr
        (advance { t with fb := fb, backbuf := written t.backbuf phys chr t.attr })

theorem debugcharNp_cases (sized : Sized d t) (columns : 0 < d.cols) (line_lt : d.line < 65536)
    (h : debugcharNp font t chr = some t') :
    ∃ t₁ phys, Room d t t₁ phys ∧ Wrote d t₁ phys chr t' := by
  rw [debugcharNp] at h
  cases hmake : makeRoom font t with
  | none =>
    rw [hmake] at h
    cases h
  | some made =>
    obtain ⟨t₁, phys⟩ := made
    have hroom := makeRoom_effect sized columns line_lt hmake
    refine ⟨t₁, phys, hroom, ?_⟩
    rw [hmake] at h
    dsimp only at h
    split at h
    · next hnul =>
      cases h
      exact .nul hnul
    split at h
    · next hnewline =>
      cases h
      exact .newline hnewline
    split at h
    · next hnul hnewline hinside =>
      obtain ⟨t₂, hpaint, rfl⟩ := Option.map_eq_some_iff.mp h
      obtain ⟨hpaintable, fb, rfl⟩ := (@paints_paintChar font
        { t₁ with backbuf := written t₁.backbuf phys chr t₁.attr } chr t₁.attr
        t₁.logicalX t₁.logicalY).effect _ _ (Painted.refl _) hpaint
      dsimp only at hpaintable
      rw [hroom.sized.width, hroom.sized.height] at hpaintable
      exact .cell fb hnul hnewline hinside hpaintable
    · cases h

theorem debugcharNp_possible (sized : Sized d t) (columns : 0 < d.cols) (line_lt : d.line < 65536)
    (fine : d.Fine t.cursor chr) : ∃ t', debugcharNp font t chr = some t' := by
  obtain ⟨hscrolls, hwritten⟩ := fine
  obtain ⟨t₁, phys, hmake⟩ := @makeRoom_possible d t font sized columns line_lt hscrolls
  have hroom := makeRoom_effect sized columns line_lt hmake
  rw [debugcharNp, hmake]
  dsimp only
  by_cases hnul : chr = 0
  · exact ⟨_, if_pos hnul⟩
  rw [if_neg hnul]
  by_cases hnewline : chr = 10
  · exact ⟨_, if_pos hnewline⟩
  obtain ⟨hinside, hpaintable⟩ := hwritten hnul hnewline
  rw [← hroom.cursor, ← hroom.place] at hinside
  rw [← hroom.cursor, ← hroom.sized.width, ← hroom.sized.height] at hpaintable
  rw [if_neg hnewline, if_pos hinside]
  obtain ⟨t₂, hpaint⟩ := (@paints_paintChar font
    { t₁ with backbuf := written t₁.backbuf phys chr t₁.attr } chr t₁.attr
    t₁.logicalX t₁.logicalY).possible _ (Painted.refl _) hpaintable
  exact ⟨advance t₂, Option.map_eq_some_iff.mpr ⟨t₂, hpaint, rfl⟩⟩

theorem advance_sized (sized : Sized d t) : Sized d (advance t) ∧
    (advance t).cursor = if (t.logicalX + 1) % 65536 ≥ d.cols then (0, (t.logicalY + 1) % 65536)
      else ((t.logicalX + 1) % 65536, t.logicalY) := by
  obtain ⟨hwidth, hheight, hcols, hrows, hline, hsize⟩ := sized
  by_cases hlast : (t.logicalX + 1) % 65536 ≥ t.colCount
  · rw [advance, if_pos hlast, if_pos (hcols ▸ hlast)]
    exact ⟨⟨hwidth, hheight, hcols, hrows, hline, hsize⟩, rfl⟩
  · rw [advance, if_neg hlast, if_neg (hcols ▸ hlast)]
    exact ⟨⟨hwidth, hheight, hcols, hrows, hline, hsize⟩, rfl⟩

/-- What the cursor decides about a character, and what becomes of it. -/
theorem debugcharNp_tracks (font : Nat → Byte) (columns : 0 < d.cols) (line_lt : d.line < 65536) :
    Tracks (debugcharNp font) (Sized d) Terminal.cursor d.Fine d.next := by
  constructor
  · intro t chr sized hfine
    exact debugcharNp_possible sized columns line_lt hfine
  · intro t chr t' sized h
    obtain ⟨t₁, phys, hroom, hwrote⟩ := debugcharNp_cases sized columns line_lt h
    rw [Display.Fine, Display.next, ← hroom.cursor, ← hroom.place]
    have hsized := hroom.sized
    cases hwrote with
    | nul hnul =>
      refine ⟨⟨hroom.fine, fun hn => absurd hnul hn⟩, hsized, ?_⟩
      rw [if_pos hnul]
    | newline hnewline =>
      have hnul : chr ≠ 0 := by
        rw [hnewline]
        decide
      refine ⟨⟨hroom.fine, fun _ hn => absurd hnewline hn⟩, ?_, ?_⟩
      · exact ⟨hsized.width, hsized.height, hsized.cols, hsized.rows, hsized.line, hsized.size⟩
      · rw [if_neg hnul, if_pos hnewline]
        rfl
    | cell fb hnul hnewline hinside hpaintable =>
      have hkept : Sized d { t₁ with fb := fb, backbuf := written t₁.backbuf phys chr t₁.attr } :=
        ⟨hsized.width, hsized.height, hsized.cols, hsized.rows, hsized.line, hsized.size⟩
      obtain ⟨hadvanced, hcursor⟩ := advance_sized hkept
      refine ⟨⟨hroom.fine, fun _ _ => ⟨hinside, hpaintable⟩⟩, hadvanced, ?_⟩
      rw [hcursor, if_neg hnul, if_neg hnewline]
      rfl

end Steps

end DebugTerm

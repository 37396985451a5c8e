import VisitorCounter.Library.Painting

/-!
# The font

The digits of the counter image are bitmaps of eight by sixteen pixels that are
copied into a buffer of RGBA pixels.  This module has the glyph table, the two
copying functions of the source, and what they paint.

## Main Definitions

* `Fault`, `usize`: arithmetic and indexing that may go wrong
* `Font.glyphBitmaps`, `Font.glyphForChar`, `Font.textSize`: the font
* `Font.blitGlyphInto`, `Font.blitInto`: copying glyphs into a buffer

## Main Results

* `Font.paints_blitGlyphInto`: a glyph within the image paints its box
* `Font.paints_blitInto`: a text within the image paints the boxes of its digits

## Design Notes

A `usize` is a natural number, and every arithmetic step on one is checked to be
below `2 ^ 64`: a step that would wrap is a `Fault`, as is an index outside its
slice, so that code without a fault neither panics nor wraps.
-/

namespace VisitorCounter

open Painting

/-- What can go wrong in the rendering: an arithmetic result outside its type, an
index outside its slice, a vector beyond `isize::MAX` bytes, or bytes that are not UTF-8. -/
inductive Fault where
  | overflow
  | outOfBounds
  | capacity
  | utf8
deriving DecidableEq, Repr

/-- A result of `usize` arithmetic. -/
def usize (n : ℕ) : Except Fault ℕ :=
  if n < 2 ^ 64 then .ok n else .error .overflow

/-- A difference in `usize` arithmetic. -/
def usizeSub (a b : ℕ) : Except Fault ℕ :=
  if b ≤ a then .ok (a - b) else .error .overflow

theorem usize_of_lt {n : ℕ} (h : n < 2 ^ 64) : usize n = .ok n := if_pos h

/-- A sequence of steps goes on with the result of its first step. -/
theorem ok_bind {ε α β : Type} (a : α) (f : α → Except ε β) : (Except.ok a >>= f) = f a := rfl

namespace Font

/-- `GLYPH_WIDTH`. -/
def glyphWidth : ℕ := 8

/-- `GLYPH_HEIGHT`. -/
def glyphHeight : ℕ := 16

/-- `GLYPH_SIZE`. -/
def glyphSize : ℕ := glyphWidth * glyphHeight

/-- `GLYPH_KERN`. -/
def glyphKern : ℕ := 1

/-- `GLYPH_COUNT`. -/
def glyphCount : ℕ := 10

/-- A bitmap row after row; a foreground pixel is not zero. -/
abbrev Glyph := Vector UInt8 glyphSize

/-- Foreground. -/
def F : UInt8 := 1

/-- `GLYPH_BITMAPS`. -/
def glyphBitmaps : Vector Glyph glyphCount := #v[
  #v[ -- 0
    0, 0, 0, F, F, 0, 0, 0,
    0, 0, F, F, F, F, 0, 0,
    0, F, F, 0, 0, F, F, 0,
    0, F, 0, 0, 0, 0, F, 0,
    F, F, 0, 0, 0, 0, F, F,
    F, F, 0, 0, 0, 0, F, F,
    F, F, 0, 0, 0, 0, F, F,
    F, F, 0, 0, F, 0, F, F,
    F, F, 0, F, 0, 0, F, F,
    F, F, 0, 0, 0, 0, F, F,
    F, F, 0, 0, 0, 0, F, F,
    F, F, 0, 0, 0, 0, F, F,
    0, F, 0, 0, 0, 0, F, 0,
    0, F, F, 0, 0, F, F, 0,
    0, 0, F, F, F, F, 0, 0,
    0, 0, 0, F, F, 0, 0, 0],
  #v[ -- 1
    0, 0, 0, F, F, 0, 0, 0,
    0, 0, F, F, F, 0, 0, 0,
    0, F, F, F, F, 0, 0, 0,
    F, F, 0, F, F, 0, 0, 0,
    F, 0, 0, F, F, 0, 0, 0,
    0, 0, 0, F, F, 0, 0, 0,
    0, 0, 0, F, F, 0, 0, 0,
    0, 0, 0, F, F, 0, 0, 0,
    0, 0, 0, F, F, 0, 0, 0,
    0, 0, 0, F, F, 0, 0, 0,
    0, 0, 0, F, F, 0, 0, 0,
    0, 0, 0, F, F, 0, 0, 0,
    0, 0, 0, F, F, 0, 0, 0,
    0, 0, 0, F, F, 0, 0, 0,
    F, F, F, F, F, F, F, F,
    F, F, F, F, F, F, F, F],
  #v[ -- 2
    0, 0, 0, F, F, 0, 0, 0,
    0, F, F, F, F, F, 0, 0,
    0, F, F, 0, 0, F, F, 0,
    F, F, 0, 0, 0, 0, F, F,
    F, F, 0, 0, 0, 0, F, F,
    0, 0, 0, 0, 0, 0, F, F,
    0, 0, 0, 0, 0, F, F, 0,
    0, 0, 0, 0, 0, F, F, 0,
    0, 0, 0, 0, F, F, 0, 0,
    0, 0, 0, 0, F, F, 0, 0,
    0, 0, 0, F, F, 0, 0, 0,
    0, 0, 0, F, F, 0, 0, 0,
    0, 0, F, F, 0, 0, 0, 0,
    0, F, F, F, 0, 0, 0, 0,
    F, F, F, F, F, F, F, F,
    F, F, F, F, F, F, F, F],
  #v[ -- 3
    0, 0, 0, F, F, 0, 0, 0,
    0, F, F, F, F, F, F, 0,
    F, F, F, 0, 0, F, F, 0,
    F, F, 0, 0, 0, 0, F, F,
    0, 0, 0, 0, 0, 0, F, F,
    0, 0, 0, 0, 0, 0, F, F,
    0, 0, 0, 0, 0, F, F, 0,
    0, 0, 0, F, F, F, 0, 0,
    0, 0, 0, F, F, F, 0, 0,
    0, 0, 0, 0, 0, F, F, 0,
    0, 0, 0, 0, 0, 0, F, F,
    0, 0, 0, 0, 0, 0, F, F,
    F, F, 0, 0, 0, 0, F, F,
    F, F, F, 0, 0, F, F, 0,
    0, F, F, F, F, F, F, 0,
    0, 0, 0, F, F, 0, 0, 0],
  #v[ -- 4
    0, 0, 0, 0, 0, F, F, 0,
    0, 0, 0, 0, F, F, F, 0,
    0, 0, 0, F, F, F, F, 0,
    0, 0, 0, F, 0, F, F, 0,
    0, 0, F, F, 0, F, F, 0,
    0, F, F, 0, 0, F, F, 0,
    0, F, F, 0, 0, F, F, 0,
    F, F, 0, 0, 0, F, F, 0,
    F, F, F, F, F, F, F, F,
    F, F, F, F, F, F, F, F,
    0, 0, 0, 0, 0, F, F, 0,
    0, 0, 0, 0, 0, F, F, 0,
    0, 0, 0, 0, 0, F, F, 0,
    0, 0, 0, 0, 0, F, F, 0,
    0, 0, 0, 0, F, F, F, F,
    0, 0, 0, 0, F, F, F, F],
  #v[ -- 5
    F, F, F, F, F, F, F, 0,
    F, F, F, F, F, F, F, 0,
    F, F, 0, 0, 0, 0, 0, 0,
    F, F, 0, 0, 0, 0, 0, 0,
    F, F, 0, 0, 0, 0, 0, 0,
    F, F, 0, 0, 0, 0, 0, 0,
    F, F, 0, F, F, F, 0, 0,
    F, F, F, F, F, F, F, 0,
    0, F, 0, 0, 0, F, F, 0,
    0, 0, 0, 0, 0, 0, F, F,
    0, 0, 0, 0, 0, 0, F, F,
    0, 0, 0, 0, 0, 0, F, F,
    F, F, 0, 0, 0, 0, F, F,
    F, F, F, 0, 0, F, F, 0,
    0, F, F, F, F, F, 0, 0,
    0, 0, 0, F, F, 0, 0, 0],
  #v[ -- 6
    0, 0, 0, F, F, 0, 0, 0,
    0, F, F, F, F, F, F, 0,
    0, F, F, 0, 0, F, F, 0,
    F, F, 0, 0, 0, 0, 0, 0,
    F, F, 0, 0, 0, 0, 0, 0,
    F, F, 0, 0, 0, 0, 0, 0,
    F, F, 0, F, F, 0, 0, 0,
    F, F, F, F, F, F, F, 0,
    F, F, F, 0, 0, F, F, 0,
    F, F, 0, 0, 0, 0, F, F,
    F, F, 0, 0, 0, 0, F, F,
    F, F, 0, 0, 0, 0, F, F,
    0, F, 0, 0, 0, 0, F, 0,
    0, F, F, 0, 0, F, F, 0,
    0, F, F, F, F, F, F, 0,
    0, 0, 0, F, F, 0, 0, 0],
  #v[ -- 7
    F, F, F, F, F, F, F, F,
    F, F, F, F, F, F, F, F,
    0, 0, 0, 0, 0, 0, F, F,
    0, 0, 0, 0, 0, 0, F, F,
    0, 0, 0, 0, 0, F, F, 0,
    0, 0, 0, 0, 0, F, F, 0,
    0, 0, 0, 0, F, F, 0, 0,
    0, 0, 0, 0, F, F, 0, 0,
    0, 0, F, F, F, F, F, 0,
    0, 0, F, F, F, F, F, 0,
    0, 0, 0, F, F, 0, 0, 0,
    0, 0, 0, F, F, 0, 0, 0,
    0, 0, 0, F, F, 0, 0, 0,
    0, 0, 0, F, F, 0, 0, 0,
    0, 0, 0, F, F, 0, 0, 0,
    0, 0, 0, F, F, 0, 0, 0],
  #v[ -- 8
    0, 0, 0, F, F, 0, 0, 0,
    0, F, F, F, F, F, F, 0,
    0, F, F, 0, 0, F, F, 0,
    0, F, 0, 0, 0, 0, F, 0,
    F, F, 0, 0, 0, 0, F, F,
    F, F, 0, 0, 0, 0, F, F,
    0, F, F, 0, 0, F, F, 0,
    0, F, F, F, F, F, F, 0,
    0, 0, F, F, F, F, 0, 0,
    0, F, F, 0, 0, F, F, 0,
    F, F, F, 0, 0, F, F, F,
    F, F, 0, 0, 0, 0, F, F,
    F, F, 0, 0, 0, 0, F, F,
    0, F, F, 0, 0, F, F, 0,
    0, F, F, F, F, F, F, 0,
    0, 0, 0, F, F, 0, 0, 0],
  #v[ -- 9
    0, 0, 0, F, F, 0, 0, 0,
    0, F, F, F, F, F, F, 0,
    0, F, F, 0, 0, F, F, 0,
    0, F, 0, 0, 0, 0, F, 0,
    F, F, 0, 0, 0, 0, F, F,
    F, F, 0, 0, 0, 0, F, F,
    F, F, 0, 0, 0, 0, F, F,
    0, F, F, 0, 0, F, F, F,
    0, F, F, F, F, F, F, F,
    0, 0, 0, F, F, 0, F, F,
    0, 0, 0, 0, 0, 0, F, F,
    0, 0, 0, 0, 0, 0, F, F,
    0, 0, 0, 0, 0, 0, F, F,
    0, F, F, 0, 0, F, F, 0,
    0, F, F, F, F, F, F, 0,
    0, 0, 0, F, F, 0, 0, 0]]

/-- The pixel of a glyph at a row and a column is in the foreground. -/
def Glyph.bit (glyph : Glyph) (row col : ℕ) : Bool :=
  glyph[row * glyphWidth + col]?.getD 0 != 0

/-- `font::glyph_for_char`. -/
def glyphForChar (c : Char) : Except Fault (Option Glyph) :=
  if c.isDigit then do
    let index ← usizeSub c.toNat '0'.toNat
    match glyphBitmaps[index]? with
    | some glyph => return some glyph
    | none => throw .outOfBounds
  else return none

/-- `font::text_size`: the bitmap size for the given string length. -/
def textSize (charCount : ℕ) : Except Fault (ℕ × ℕ) := do
  let width ← usize (charCount * (glyphWidth + glyphKern))
  return (width, glyphHeight)

/-- The index of a glyph's pixel in the buffer. -/
def destIndex (bufferWidth x y row col : ℕ) : Except Fault ℕ := do
  let line ← usize (y + row)
  let start ← usize (line * bufferWidth)
  let column ← usize (x + col)
  let pixel ← usize (start + column)
  usize (pixel * 4)

/-- The four writes of either branch of `blit_glyph_into`. -/
def setPixel (buffer : Array UInt8) (destIndex : ℕ) (value : UInt8) :
    Except Fault (Array UInt8) := do
  let buffer ← write .outOfBounds buffer destIndex value
  let green ← usize (destIndex + 1)
  let buffer ← write .outOfBounds buffer green value
  let blue ← usize (destIndex + 2)
  let buffer ← write .outOfBounds buffer blue value
  let alpha ← usize (destIndex + 3)
  write .outOfBounds buffer alpha value

/-- The body of the loops of `blit_glyph_into`. -/
def blitPixelInto (bufferWidth : ℕ) (glyph : Glyph) (x y row : ℕ) (buffer : Array UInt8)
    (col : ℕ) : Except Fault (Array UInt8) := do
  let dest ← destIndex bufferWidth x y row col
  match glyph[row * glyphWidth + col]? with
  | none => throw .outOfBounds
  | some 0 => setPixel buffer dest 0x00
  | some _ => setPixel buffer dest 0xFF

/-- `font::blit_glyph_into`. -/
def blitGlyphInto (buffer : Array UInt8) (bufferWidth : ℕ) (glyph : Glyph) (x y : ℕ) :
    Except Fault (Array UInt8) :=
  (List.range glyphHeight).foldlM (fun buffer row =>
    (List.range glyphWidth).foldlM (blitPixelInto bufferWidth glyph x y row) buffer) buffer

/-- The loop of `blit_into` over the characters of the text. -/
def blitChars (bufferWidth offsetY : ℕ) : List Char → ℕ → Array UInt8 → Except Fault (Array UInt8)
  | [], _, buffer => return buffer
  | c :: text, x, buffer => do
      match ← glyphForChar c with
      | some glyph =>
          let buffer ← blitGlyphInto buffer bufferWidth glyph x offsetY
          let x ← usize (x + (glyphWidth + glyphKern))
          blitChars bufferWidth offsetY text x buffer
      | none => blitChars bufferWidth offsetY text x buffer

/-- `font::blit_into`. -/
def blitInto (buffer : Array UInt8) (bufferWidth : ℕ) (text : String) (offsetX offsetY : ℕ) :
    Except Fault (Array UInt8) :=
  blitChars bufferWidth offsetY text.toList offsetX buffer

/-! ### The glyph of a digit -/

/-- **Every digit has its glyph.** -/
theorem glyphForChar_digitChar (d : Fin glyphCount) :
    glyphForChar d.val.digitChar = .ok (some glyphBitmaps[d]) := by
  have hdigit : ∀ d : Fin 10, d.val.digitChar.isDigit = true ∧
      usizeSub d.val.digitChar.toNat '0'.toNat = .ok d.val := by decide
  obtain ⟨hisDigit, hindex⟩ := hdigit d
  rw [glyphForChar, if_pos hisDigit, hindex, ok_bind]
  have hglyph : glyphBitmaps[d.val]? = some glyphBitmaps[d] := Vector.getElem?_eq_getElem d.isLt
  rw [hglyph]
  rfl

/-! ### What is painted -/

section Paints

variable {width height : ℕ} {glyph : Glyph} {picture : Cell → UInt8}

/-- The channels of one pixel. -/
def pixel (column row : ℕ) : Set Cell :=
  {p | p.column = column ∧ p.row = row ∧ p.channel < 4}

/-- The pixels of a glyph with its upper left corner at the given place. -/
def box (x y : ℕ) : Set Cell :=
  {p | x ≤ p.column ∧ p.column < x + glyphWidth ∧ y ≤ p.row ∧ p.row < y + glyphHeight ∧
    p.channel < 4}

/-- The colour of a pixel in every channel: opaque white or transparent. -/
def colour (foreground : Bool) : UInt8 := if foreground then 0xFF else 0x00

/-- The four writes paint the channels of a pixel. -/
theorem paints_setPixel {column row : ℕ} {value : UInt8} (hcolumn : column < width)
    (hrow : row < height) (hsize : width * height * 4 < 2 ^ 64)
    (hvalue : ∀ k < 4, picture ⟨column, row, k⟩ = value) :
    (raster width height 4).Paints
      (fun buffer => setPixel buffer ((row * width + column) * 4) value)
      (pixel column row) picture := by
  have hpixel : pixel column row =
      {⟨column, row, 0⟩} ∪ ({⟨column, row, 1⟩} ∪ ({⟨column, row, 2⟩} ∪ {⟨column, row, 3⟩})) := by
    ext p
    simp only [pixel, Set.mem_ofPred_eq, Set.mem_union, Set.mem_singleton_iff, Cell.ext_iff]
    omega
  have hwrite : ∀ k < 4, (raster width height 4).Paints
      (fun buffer => write Fault.outOfBounds buffer ((row * width + column) * 4 + k) value)
      {⟨column, row, k⟩} picture := by
    intro k hk
    have hcell : (⟨column, row, k⟩ : Cell) ∈ (raster width height 4).cells := ⟨hcolumn, hrow, hk⟩
    rw [← hvalue k hk]
    exact Layout.paints_write Fault.outOfBounds hcell
  have hindex : ∀ k < 4, usize ((row * width + column) * 4 + k) =
      .ok ((row * width + column) * 4 + k) := by
    intro k hk
    have hlt := (raster width height 4).index_lt ⟨column, row, k⟩ ⟨hcolumn, hrow, hk⟩
    exact usize_of_lt (lt_trans hlt hsize)
  simp only [setPixel, hindex 1 (by omega), hindex 2 (by omega), hindex 3 (by omega), ok_bind]
  rw [hpixel]
  exact (hwrite 0 (by omega)).seq
    ((hwrite 1 (by omega)).seq ((hwrite 2 (by omega)).seq (hwrite 3 (by omega))))

/-- A glyph within the image has its pixels at indices without overflow. -/
theorem destIndex_eq {x y row col : ℕ} (hcol : x + col < width) (hrow : y + row < height)
    (hsize : width * height * 4 < 2 ^ 64) :
    destIndex width x y row col = .ok (((y + row) * width + (x + col)) * 4) := by
  have hlt := (raster width height 4).index_lt ⟨x + col, y + row, 0⟩
    ⟨hcol, hrow, Nat.succ_pos 3⟩
  change ((y + row) * width + (x + col)) * 4 + 0 < width * height * 4 at hlt
  have hheight : height ≤ width * height := Nat.le_mul_of_pos_left height (by omega)
  simp only [destIndex]
  rw [usize_of_lt (by omega), ok_bind, usize_of_lt (by omega), ok_bind, usize_of_lt (by omega),
    ok_bind, usize_of_lt (by omega), ok_bind, usize_of_lt (by omega)]

/-- One step of the loops paints one pixel. -/
theorem paints_blitPixelInto {x y row col : ℕ} (hx : x + glyphWidth ≤ width)
    (hy : y + glyphHeight ≤ height) (hsize : width * height * 4 < 2 ^ 64)
    (hrow : row < glyphHeight) (hcol : col < glyphWidth)
    (hpicture : ∀ k < 4, picture ⟨x + col, y + row, k⟩ = colour (glyph.bit row col)) :
    (raster width height 4).Paints (fun buffer => blitPixelInto width glyph x y row buffer col)
      (pixel (x + col) (y + row)) picture := by
  have hlt : row * glyphWidth + col < glyphSize := by
    rw [glyphSize, Nat.mul_comm glyphWidth]
    exact mul_add_lt hrow hcol
  have hglyph : glyph[row * glyphWidth + col]? = some glyph[row * glyphWidth + col] :=
    Vector.getElem?_eq_getElem hlt
  simp only [blitPixelInto]
  rw [destIndex_eq (by omega) (by omega) hsize, hglyph]
  simp only [ok_bind]
  rw [Glyph.bit, hglyph, Option.getD_some] at hpicture
  -- The match of the source is on the byte, the picture on its being zero.
  split
  · contradiction
  · rename_i hzero
    rw [Option.some.inj hzero] at hpicture
    exact paints_setPixel (by omega) (by omega) hsize hpicture
  · rename_i value hne heq
    rw [Option.some.inj heq] at hpicture
    have hvalue : (value != 0) = true := bne_iff_ne.mpr fun hzero => hne (by rw [hzero])
    rw [hvalue] at hpicture
    exact paints_setPixel (by omega) (by omega) hsize hpicture

/-- The loops over the rows and columns of a glyph go through its box. -/
theorem box_eq (x y : ℕ) :
    box x y = ⋃ row ∈ List.range glyphHeight, ⋃ col ∈ List.range glyphWidth,
      pixel (x + col) (y + row) := by
  ext p
  simp only [box, pixel, Set.mem_ofPred_eq, Set.mem_iUnion, List.mem_range, exists_prop]
  constructor
  · rintro ⟨hx, hx', hy, hy', hchannel⟩
    exact ⟨p.row - y, by omega, p.column - x, by omega, by omega, by omega, hchannel⟩
  · rintro ⟨row, hrow, col, hcol, hcolumn, hline, hchannel⟩
    exact ⟨by omega, by omega, by omega, by omega, hchannel⟩

/-- **A glyph within the image paints its box.** -/
theorem paints_blitGlyphInto {x y : ℕ} (hx : x + glyphWidth ≤ width)
    (hy : y + glyphHeight ≤ height) (hsize : width * height * 4 < 2 ^ 64)
    (hpicture : ∀ row < glyphHeight, ∀ col < glyphWidth, ∀ k < 4,
      picture ⟨x + col, y + row, k⟩ = colour (glyph.bit row col)) :
    (raster width height 4).Paints (fun buffer => blitGlyphInto buffer width glyph x y)
      (box x y) picture := by
  rw [box_eq]
  refine Layout.Paints.foldlM fun row hrow => Layout.Paints.foldlM fun col hcol => ?_
  rw [List.mem_range] at hrow hcol
  exact paints_blitPixelInto hx hy hsize hrow hcol (hpicture row hrow col hcol)

/-- The left edges of the digits of one group. -/
def lineUp (x : ℕ) (digits : List (Fin glyphCount)) : List (ℕ × Fin glyphCount) :=
  digits.mapIdx fun i d => (x + i * (glyphWidth + glyphKern), d)

theorem lineUp_cons (x : ℕ) (d : Fin glyphCount) (digits : List (Fin glyphCount)) :
    lineUp x (d :: digits) = (x, d) :: lineUp (x + (glyphWidth + glyphKern)) digits := by
  simp only [lineUp, List.mapIdx_cons, Nat.zero_mul, Nat.add_zero, List.cons.injEq, true_and]
  congr 1
  funext i d
  rw [Nat.succ_mul]
  congr 1
  omega

/-- The last digit of a group ends where the next digit would start. -/
theorem exists_mem_lineUp (x : ℕ) {digits : List (Fin glyphCount)} (h : digits ≠ []) :
    ∃ placed ∈ lineUp x digits,
      placed.1 + (glyphWidth + glyphKern) = x + digits.length * (glyphWidth + glyphKern) := by
  obtain ⟨before, d, rfl⟩ := List.eq_nil_or_concat digits |>.resolve_left h
  refine ⟨(x + before.length * (glyphWidth + glyphKern), d), by simp [lineUp], ?_⟩
  rw [List.length_concat, Nat.succ_mul, Nat.add_assoc]

/-- A digit at a left edge is within the image, and the picture has its glyph there. -/
structure Drawable (width y : ℕ) (picture : Cell → UInt8) (placed : ℕ × Fin glyphCount) : Prop where
  within : placed.1 + glyphWidth ≤ width
  shown : ∀ row < glyphHeight, ∀ col < glyphWidth, ∀ k < 4,
    picture ⟨placed.1 + col, y + row, k⟩ = colour (glyphBitmaps[placed.2].bit row col)

/-- The text of some digits. -/
def text (digits : List (Fin glyphCount)) : String :=
  String.ofList (digits.map fun d => d.val.digitChar)

/-- **A text within the image paints the boxes of its digits.** -/
theorem paints_blitInto {y : ℕ} (hy : y + glyphHeight ≤ height)
    (hsize : width * height * 4 < 2 ^ 64) {digits : List (Fin glyphCount)} {x : ℕ}
    (hdrawable : ∀ placed ∈ lineUp x digits, Drawable width y picture placed) :
    (raster width height 4).Paints (fun buffer => blitInto buffer width (text digits) x y)
      (⋃ placed ∈ lineUp x digits, box placed.1 y) picture := by
  simp only [blitInto, text, String.toList_ofList]
  induction digits generalizing x with
  | nil =>
      simp only [lineUp, List.mapIdx_nil, List.not_mem_nil, Set.iUnion_of_empty, Set.iUnion_empty]
      exact Layout.paints_pure
  | cons d digits ih =>
      rw [lineUp_cons] at hdrawable ⊢
      rw [List.forall_mem_cons] at hdrawable
      obtain ⟨hfirst, hothers⟩ := hdrawable
      have hwithin := hfirst.within
      have hheight : 0 < height := lt_of_lt_of_le (Nat.succ_pos 15) (le_of_add_le_right hy)
      have hwidth : width ≤ width * height := Nat.le_mul_of_pos_right width hheight
      have hkern : glyphKern < glyphWidth := by decide
      have hnext : usize (x + (glyphWidth + glyphKern)) = .ok (x + (glyphWidth + glyphKern)) :=
        usize_of_lt (by omega)
      have hglyph := paints_blitGlyphInto hwithin hy hsize hfirst.shown
      simp only [List.mem_cons, Set.iUnion_iUnion_eq_or_left, List.map_cons, blitChars,
        glyphForChar_digitChar, hnext, ok_bind]
      exact hglyph.seq (ih hothers)

end Paints

end Font

end VisitorCounter

import Mathlib.Data.UInt
import VisitorCounter.Font
import VisitorCounter.Time

/-!
# The counter image

The count is rendered right-aligned with a space between every three digits.
The width of the image, the first left edge and the advance from group to group
come from three formulas of the source; here they are shown to agree, and the
image is shown to be the reference image of the number.

## Main Definitions

* `renderSeparatedNumber`: the function of the source
* `digitCount`, `digit`: the decimal digits of a number, by division
* `edge`: the left edge of every digit
* `Depicts`: an image is the reference image of a number
* `ImageFits`: the image has no more bytes than a vector can have

## Main Results

* `placements_rchunks`: the loop over the groups puts every digit at its edge
* `edge_within`: the last digit ends before the right border
* `imageFits_of_render`, `exists_render_of_fits`: an image is returned if it fits
* `render_reference`: the rendered image is the reference image

## Design Notes

Arithmetic is checked: what overflows is a fault.  An image that is returned is therefore
also returned by a release build, which wraps around.  Where an overflow is a fault here, a
release build may go on with the wrapped numbers and even return an image, as it does for
reserve widths near `2 ^ 64 / 10`; nothing is said about such images.
-/

namespace VisitorCounter

open Painting Font

/-! ### The source -/

/-- A rendered counter: its pixels are in 32-bit RGBA format. -/
structure Render where
  width : ℕ
  height : ℕ
  pixels : Array UInt8

/-- A result of `isize` arithmetic. -/
def isize (n : ℤ) : Except Fault ℤ :=
  if -2 ^ 63 ≤ n ∧ n < 2 ^ 63 then .ok n else .error .overflow

/-- The cast `as isize`. -/
def asIsize (n : ℕ) : ℤ := (n : ℤ).bmod (2 ^ 64)

/-- The cast `as usize`. -/
def asUsize (n : ℤ) : ℕ := (n % 2 ^ 64).toNat

/-- `vec![0; n]`. -/
def zeroed (n : ℕ) : Except Fault (Array UInt8) :=
  if n < 2 ^ 63 then .ok (Array.replicate n 0) else .error .capacity

/-- `String::as_bytes`. -/
def asBytes (s : String) : List UInt8 := s.toByteArray.data.toList

/-- `std::str::from_utf8` and its `unwrap`. -/
def fromUtf8 (bytes : List UInt8) : Except Fault String :=
  match String.fromUTF8? ⟨bytes.toArray⟩ with
  | some s => .ok s
  | none => .error .utf8

/-- `slice::rchunks`: chunks from the right, the last one with what is left over. -/
def rchunks {α : Type} (chunkSize : ℕ) (l : List α) : List (List α) :=
  if l ≠ [] ∧ chunkSize ≠ 0 then
    l.drop (l.length - chunkSize) :: rchunks chunkSize (l.take (l.length - chunkSize))
  else []
termination_by l.length
decreasing_by
  rename_i h
  have hpos := List.length_pos_iff.mpr h.1
  have hsize := Nat.pos_of_ne_zero h.2
  rw [List.length_take]
  omega

/-- `Some(a as isize - b as isize).filter(|&n| n > 0).map(f).unwrap_or(0)`. -/
def onSurplus (a b : ℕ) (f : ℕ → Except Fault ℕ) : Except Fault ℕ := do
  let n ← isize (asIsize a - asIsize b)
  if 0 < n then f (asUsize n) else return 0

/-- The spacing between groups of digits in pixels. -/
def groupSpacing : ℕ := 3

/-- The loop of `render_separated_number` over the groups. -/
def blitGroups (width : ℕ) : List String → ℕ → Array UInt8 → Except Fault (Array UInt8)
  | [], _, pixels => return pixels
  | group :: groups, x, pixels => do
      let pixels ← blitInto pixels width group x 1
      let (groupWidth, _) ← textSize group.utf8ByteSize
      let advance ← usize (groupWidth + groupSpacing)
      let x ← usize (x + advance)
      blitGroups width groups x pixels

/-- The width of the image. -/
def imageWidth (len reserveWidth textWidth : ℕ) : Except Fault ℕ := do
  let spacing ← usize (groupSpacing * max (reserveWidth / 3) (len / 3))
  let padded ← usize (2 + textWidth)
  usize (padded + spacing)

/-- The very first X offset, such that the number ends up right-aligned. -/
def firstEdge (len reserveWidth : ℕ) : Except Fault ℕ := do
  let characters ← onSurplus reserveWidth len fun n => do
    let (width, _) ← textSize n
    return width
  let x ← usize (1 + characters)
  let spaces ← onSurplus (reserveWidth / 3) (len / 3) fun n => usize (n * groupSpacing)
  usize (x + spaces)

/-- `render_separated_number`, with arithmetic that is checked for overflow. -/
def renderSeparatedNumber (number reserveWidth : UInt64) : Except Fault Render := do
  let number := number.toNat.repr
  let reserveWidth := reserveWidth.toNat
  let len := number.utf8ByteSize
  let groups ← (rchunks 3 (asBytes number)).reverse.mapM fromUtf8
  let (width, height) ← textSize (max len reserveWidth)
  let width ← imageWidth len reserveWidth width
  let height ← usize (2 + height)
  let area ← usize (width * height)
  let bytes ← usize (area * 4)
  let pixels ← zeroed bytes
  let x ← firstEdge len reserveWidth
  let pixels ← blitGroups width groups x pixels
  return { width := width, height := height, pixels := pixels }

/-! ### The digits of a number -/

/-- The number of decimal digits. -/
def digitCount (n : ℕ) : ℕ := Nat.log 10 n + 1

/-- The digit at a position from the left. -/
def digit (n i : ℕ) : Fin glyphCount :=
  ⟨n / 10 ^ (digitCount n - 1 - i) % 10, Nat.mod_lt _ (by decide)⟩

/-- The digits of a number, from left to right. -/
def digits (n : ℕ) : List (Fin glyphCount) := (List.range (digitCount n)).map (digit n)

@[simp] theorem length_digits (n : ℕ) : (digits n).length = digitCount n := by
  simp [digits]

theorem digitCount_pos (n : ℕ) : 0 < digitCount n := Nat.succ_pos _

/-- A number of ten or more has the digits of its tenth and its last digit. -/
theorem digits_of_le {n : ℕ} (h : 10 ≤ n) :
    digits n = digits (n / 10) ++ [⟨n % 10, Nat.mod_lt _ (by decide)⟩] := by
  have hcount : digitCount n = digitCount (n / 10) + 1 := by
    rw [digitCount, digitCount, Nat.log_of_one_lt_of_le (by norm_num) h]
  rw [digits, hcount, List.range_succ, List.map_append, List.map_singleton]
  congr 1
  · refine List.map_congr_left fun i hi => ?_
    rw [List.mem_range] at hi
    apply Fin.ext
    show n / 10 ^ (digitCount n - 1 - i) % 10 = n / 10 / 10 ^ (digitCount (n / 10) - 1 - i) % 10
    rw [hcount, Nat.div_div_eq_div_mul, ← Nat.pow_succ']
    congr 3
    omega
  · congr 1
    apply Fin.ext
    show n / 10 ^ (digitCount n - 1 - digitCount (n / 10)) % 10 = n % 10
    rw [hcount, Nat.add_sub_cancel, Nat.sub_self, Nat.pow_zero, Nat.div_one]

/-- **The decimal text of a number has its digits.** -/
theorem repr_eq_text (n : ℕ) : n.repr = text (digits n) := by
  rw [Nat.repr_eq_ofList_toDigits, text]
  congr 1
  induction n using Nat.strongRecOn with
  | ind n ih =>
      by_cases h : n < 10
      · have hcount : digitCount n = 1 := by rw [digitCount, Nat.log_of_lt h]
        rw [Nat.toDigits_of_lt_base h, digits, hcount]
        simp [digit, hcount, Nat.mod_eq_of_lt h]
      · rw [Nat.toDigits_of_base_le (by norm_num) (by omega), ih (n / 10) (by omega),
          digits_of_le (n := n) (by omega), List.map_append]
        rfl

/-- The byte of a digit in a text. -/
def digitByte (d : Fin glyphCount) : UInt8 := d.val.digitChar.toUInt8

theorem toByteArray_text (ds : List (Fin glyphCount)) :
    (text ds).toByteArray = (ds.map digitByte).toByteArray := by
  have hbyte : ∀ d : Fin glyphCount, String.utf8EncodeChar d.val.digitChar = [digitByte d] := by
    decide
  rw [text, String.toByteArray_ofList, List.utf8Encode, List.flatMap_map]
  simp only [hbyte]
  rw [← List.map_eq_flatMap]

/-- The digits of a text are one byte each. -/
theorem asBytes_text (ds : List (Fin glyphCount)) : asBytes (text ds) = ds.map digitByte := by
  rw [asBytes, toByteArray_text, List.data_toByteArray]

theorem utf8ByteSize_text (ds : List (Fin glyphCount)) : (text ds).utf8ByteSize = ds.length := by
  rw [← String.size_toByteArray, toByteArray_text, List.size_toByteArray, List.length_map]

/-- Digits are valid UTF-8. -/
theorem fromUtf8_digits (ds : List (Fin glyphCount)) :
    fromUtf8 (ds.map digitByte) = .ok (text ds) := by
  have hbytes : (⟨(ds.map digitByte).toArray⟩ : ByteArray) = (text ds).toByteArray := by
    rw [toByteArray_text]
    exact congrArg ByteArray.mk List.data_toByteArray.symm
  rw [fromUtf8, hbytes, String.fromUTF8?, dif_pos (text ds).isValidUTF8]
  rfl

/-! ### The groups -/

section Chunks

variable {α β : Type} {chunkSize : ℕ}

theorem rchunks_of_ne_nil (hsize : chunkSize ≠ 0) {l : List α} (h : l ≠ []) :
    rchunks chunkSize l =
      l.drop (l.length - chunkSize) :: rchunks chunkSize (l.take (l.length - chunkSize)) := by
  rw [rchunks, if_pos ⟨h, hsize⟩]

/-- The chunks of a mapped list. -/
theorem rchunks_map (f : α → β) (l : List α) :
    rchunks chunkSize (l.map f) = (rchunks chunkSize l).map (List.map f) := by
  fun_induction rchunks chunkSize l with
  | case1 l h ih =>
      rw [rchunks_of_ne_nil h.2 (by simpa using h.1), List.length_map, ← List.map_take, ih,
        ← List.map_drop, List.map_cons]
  | case2 l h => rw [rchunks, if_neg (by simpa using h), List.map_nil]

/-- The chunks have the elements of the list in order. -/
theorem flatten_reverse_rchunks (hsize : chunkSize ≠ 0) (l : List α) :
    (rchunks chunkSize l).reverse.flatten = l := by
  fun_induction rchunks chunkSize l with
  | case1 l h ih =>
      rw [List.reverse_cons, List.flatten_append, ih]
      simp
  | case2 l h =>
      have hnil : l = [] := by
        by_contra hne
        exact h ⟨hne, hsize⟩
      rw [hnil]
      rfl

/-- The number of chunks of three. -/
theorem length_rchunks_three (l : List α) : (rchunks 3 l).length = (l.length + 2) / 3 := by
  fun_induction rchunks 3 l with
  | case1 l h ih =>
      have hpos := List.length_pos_iff.mpr h.1
      rw [List.length_cons, ih, List.length_take]
      omega
  | case2 l h =>
      have hnil : l = [] := by simpa using h
      simp [hnil]

/-- No chunk is empty. -/
theorem ne_nil_of_mem_rchunks {l chunk : List α} (h : chunk ∈ rchunks chunkSize l) :
    chunk ≠ [] := by
  fun_induction rchunks chunkSize l with
  | case1 l hl ih =>
      rcases List.mem_cons.mp h with rfl | hrest
      · have hpos := List.length_pos_iff.mpr hl.1
        have hsize := Nat.pos_of_ne_zero hl.2
        rw [← List.length_pos_iff, List.length_drop]
        omega
      · exact ih hrest
  | case2 l hl => exact absurd h List.not_mem_nil

end Chunks

/-- The digits that the loop over the groups draws, with their left edges. -/
def placements : ℕ → List (List (Fin glyphCount)) → List (ℕ × Fin glyphCount)
  | _, [] => []
  | x, group :: groups =>
      lineUp x group ++
        placements (x + (group.length * (glyphWidth + glyphKern) + groupSpacing)) groups

/-- The left edge of a digit, when the first one of so many digits is at `x`: each
digit before it takes its advance, and each group before it its spacing. -/
def edge (x count i : ℕ) : ℕ :=
  x + i * (glyphWidth + glyphKern) + groupSpacing * ((count - 1) / 3 - (count - 1 - i) / 3)

theorem placements_append (x : ℕ) (groups : List (List (Fin glyphCount)))
    (group : List (Fin glyphCount)) :
    placements x (groups ++ [group]) =
      placements x groups ++ lineUp (x + groups.flatten.length * (glyphWidth + glyphKern) +
        groupSpacing * groups.length) group := by
  induction groups generalizing x with
  | nil => simp [placements]
  | cons first groups ih =>
      rw [List.cons_append, placements, ih, placements, List.append_assoc]
      congr 3
      simp only [List.flatten_cons, List.length_append, List.length_cons]
      ring

/-- **The loop over the groups puts every digit at its edge.** -/
theorem placements_rchunks (x : ℕ) (ds : List (Fin glyphCount)) :
    placements x (rchunks 3 ds).reverse = ds.mapIdx fun i d => (edge x ds.length i, d) := by
  fun_induction rchunks 3 ds with
  | case1 ds h ih =>
      have hpos := List.length_pos_iff.mpr h.1
      -- The last group starts behind all the digits and groups before it.
      rw [List.reverse_cons, placements_append, ih, flatten_reverse_rchunks (by decide),
        List.length_reverse, length_rchunks_three, lineUp, List.length_take]
      conv_rhs => rw [← List.take_append_drop (ds.length - 3) ds, List.mapIdx_append]
      rw [List.length_append, List.length_take, List.length_drop]
      congr 1
      · -- Three digits more on the right move every earlier digit one group on.
        refine List.mapIdx_eq_mapIdx_iff.mpr fun i hi => ?_
        rw [List.length_take] at hi
        simp only [edge, groupSpacing, Prod.mk.injEq, and_true]
        omega
      · refine List.mapIdx_eq_mapIdx_iff.mpr fun i hi => ?_
        rw [List.length_drop] at hi
        simp only [edge, glyphWidth, glyphKern, groupSpacing, Prod.mk.injEq, and_true]
        omega
  | case2 ds h =>
      have hnil : ds = [] := by simpa using h
      rw [hnil]
      rfl

/-! ### What is painted -/

section Paints

variable {width height : ℕ} {picture : Cell → UInt8}

theorem textSize_of_lt {n : ℕ} (h : n * (glyphWidth + glyphKern) < 2 ^ 64) :
    textSize n = .ok (n * (glyphWidth + glyphKern), glyphHeight) := by
  rw [textSize, usize_of_lt h]
  rfl

/-- **The loop over the groups paints the boxes of the digits.** -/
theorem paints_blitGroups (hheight : 1 + glyphHeight ≤ height)
    (hsize : width * height * 4 < 2 ^ 64) {groups : List (List (Fin glyphCount))} {x : ℕ}
    (hgroups : ∀ group ∈ groups, group ≠ [])
    (hdrawable : ∀ placed ∈ placements x groups, Drawable width 1 picture placed) :
    (raster width height 4).Paints (fun pixels => blitGroups width (groups.map text) x pixels)
      (⋃ placed ∈ placements x groups, box placed.1 1) picture := by
  induction groups generalizing x with
  | nil =>
      simp only [placements, List.not_mem_nil, Set.iUnion_of_empty, Set.iUnion_empty]
      exact Layout.paints_pure
  | cons group groups ih =>
      rw [placements] at hdrawable ⊢
      rw [List.forall_mem_append] at hdrawable
      obtain ⟨hgroup, hothers⟩ := List.forall_mem_cons.mp hgroups
      -- The end of the group is within the image, so that its advance does not overflow.
      obtain ⟨last, hlast, hend⟩ := exists_mem_lineUp x hgroup
      have hwithin := (hdrawable.1 last hlast).within
      have hwidth : width ≤ width * height :=
        Nat.le_mul_of_pos_right width (lt_of_lt_of_le (Nat.succ_pos 16) hheight)
      have hkern : glyphKern = 1 := rfl
      have hspacing : groupSpacing = 3 := rfl
      have hsizes : textSize (text group).utf8ByteSize =
          .ok (group.length * (glyphWidth + glyphKern), glyphHeight) := by
        rw [utf8ByteSize_text]
        exact textSize_of_lt (by omega)
      simp only [List.mem_append, Set.iUnion_or, Set.iUnion_union_distrib, List.map_cons,
        blitGroups, hsizes, ok_bind]
      rw [usize_of_lt (by omega)]
      simp only [ok_bind]
      rw [usize_of_lt (by omega)]
      simp only [ok_bind]
      exact (paints_blitInto hheight hsize hdrawable.1).seq (ih hothers hdrawable.2)

end Paints

/-! ### The three formulas -/

section Formulas

variable {len reserveWidth : ℕ}

theorem asIsize_of_lt {n : ℕ} (h : n < 2 ^ 63) : asIsize n = n := by
  exact Int.bmod_eq_of_le (by omega) (by omega)

/-- What a surplus adds, when that is proportional to it. -/
theorem onSurplus_eq {a b k : ℕ} {f : ℕ → Except Fault ℕ} (ha : a < 2 ^ 63) (hb : b < 2 ^ 63)
    (hf : f (a - b) = .ok ((a - b) * k)) : onSurplus a b f = .ok ((a - b) * k) := by
  have hisize : isize (asIsize a - asIsize b) = .ok ((a : ℤ) - b) := by
    rw [asIsize_of_lt ha, asIsize_of_lt hb, isize, if_pos (by omega)]
  rw [onSurplus, hisize, ok_bind]
  by_cases hsurplus : b < a
  · have hcast : asUsize ((a : ℤ) - b) = a - b := by
      unfold asUsize
      omega
    rw [if_pos (by omega), hcast, hf]
  · rw [if_neg (by omega), Nat.sub_eq_zero_of_le (by omega), Nat.zero_mul]
    rfl

/-- The width of the image in pixels. -/
def totalWidth (len reserveWidth : ℕ) : ℕ :=
  2 + max len reserveWidth * (glyphWidth + glyphKern) +
    groupSpacing * max (reserveWidth / 3) (len / 3)

/-- The left edge of the first digit. -/
def startEdge (len reserveWidth : ℕ) : ℕ :=
  1 + (reserveWidth - len) * (glyphWidth + glyphKern) +
    (reserveWidth / 3 - len / 3) * groupSpacing

/-- The image has no more bytes than a vector can have. -/
def ImageFits (len reserveWidth : ℕ) : Prop := totalWidth len reserveWidth * 18 * 4 < 2 ^ 63

instance (len reserveWidth : ℕ) : Decidable (ImageFits len reserveWidth) :=
  inferInstanceAs (Decidable (_ < _))

theorem imageFits_of_le (hlen : len ≤ 2 ^ 50) (hreserve : reserveWidth ≤ 2 ^ 50) :
    ImageFits len reserveWidth := by
  simp only [ImageFits, totalWidth, glyphWidth, glyphKern, groupSpacing]
  omega

/-- The image is wider than its characters and its spaces. -/
theorem ImageFits.bounds (h : ImageFits len reserveWidth) :
    2 + max len reserveWidth * 9 + 3 * max (reserveWidth / 3) (len / 3) < 2 ^ 57 := by
  simp only [ImageFits, totalWidth, glyphWidth, glyphKern, groupSpacing] at h
  omega

theorem imageWidth_eq (h : ImageFits len reserveWidth) :
    imageWidth len reserveWidth (max len reserveWidth * (glyphWidth + glyphKern)) =
      .ok (totalWidth len reserveWidth) := by
  have hglyph : glyphWidth + glyphKern = 9 := rfl
  have hspacing : groupSpacing = 3 := rfl
  have hbounds := h.bounds
  rw [imageWidth, totalWidth, hglyph, hspacing, usize_of_lt (by omega), ok_bind,
    usize_of_lt (by omega), ok_bind, usize_of_lt (by omega)]

theorem firstEdge_eq (h : ImageFits len reserveWidth) :
    firstEdge len reserveWidth = .ok (startEdge len reserveWidth) := by
  have hglyph : glyphWidth + glyphKern = 9 := rfl
  have hspacing : groupSpacing = 3 := rfl
  have hbounds := h.bounds
  have hcharacters : onSurplus reserveWidth len (fun n => do
      let (width, _) ← textSize n
      return width) = .ok ((reserveWidth - len) * (glyphWidth + glyphKern)) := by
    refine onSurplus_eq (by omega) (by omega) ?_
    rw [textSize_of_lt (by rw [hglyph]; omega)]
    rfl
  have hspaces : onSurplus (reserveWidth / 3) (len / 3) (fun n => usize (n * groupSpacing)) =
      .ok ((reserveWidth / 3 - len / 3) * groupSpacing) :=
    onSurplus_eq (by omega) (by omega) (usize_of_lt (by rw [hspacing]; omega))
  rw [firstEdge, hcharacters, hspaces, startEdge, hglyph, hspacing, ok_bind,
    usize_of_lt (by omega), ok_bind, ok_bind, usize_of_lt (by omega)]

/-- **The last digit ends before the right border**, whatever the remainders of the
two widths. -/
theorem edge_within {i : ℕ} (hi : i < len) :
    edge (startEdge len reserveWidth) len i + glyphWidth ≤ totalWidth len reserveWidth - 1 := by
  simp only [edge, startEdge, totalWidth, glyphWidth, glyphKern, groupSpacing]
  omega

/-- Every digit is an advance behind the digits before it. -/
theorem edge_add_le (x len : ℕ) {i j : ℕ} (hij : i < j) :
    edge x len i + (glyphWidth + glyphKern) ≤ edge x len j := by
  simp only [edge, glyphWidth, glyphKern, groupSpacing]
  omega

/-- The advance from digit to digit. -/
theorem edge_succ (x : ℕ) {i : ℕ} (hi : i + 1 < len) :
    edge x len (i + 1) = edge x len i +
      if (len - 1 - i) / 3 = (len - 1 - (i + 1)) / 3 then 9 else 12 := by
  simp only [edge, glyphWidth, glyphKern, groupSpacing]
  split <;> omega

end Formulas

/-! ### The reference image -/

/-- A pixel of the reference image is white: it is in the foreground of the glyph of
some digit, whose left edge is given. -/
def Inked (number : ℕ) (e : ℕ → ℕ) (px py : ℕ) : Prop :=
  ∃ i < digitCount number, ∃ c < glyphWidth, ∃ r < glyphHeight,
    px = e i + c ∧ py = 1 + r ∧ glyphBitmaps[digit number i].bit r c = true

instance (number : ℕ) (e : ℕ → ℕ) (px py : ℕ) : Decidable (Inked number e px py) :=
  inferInstanceAs (Decidable (∃ i < digitCount number, ∃ c < glyphWidth, ∃ r < glyphHeight,
    px = e i + c ∧ py = 1 + r ∧ glyphBitmaps[digit number i].bit r c = true))

/-- **An image is the reference image of a number** with the given left edges. -/
structure Depicts (render : Render) (number : ℕ) (e : ℕ → ℕ) : Prop where
  height_eq : render.height = 18
  size_eq : render.pixels.size = render.width * render.height * 4
  strictMonoOn : StrictMonoOn e (Set.Iio (digitCount number))
  /-- Digits of one group of three, counted from the right, are 9 pixels apart, others 12. -/
  advance : ∀ i, i + 1 < digitCount number → e (i + 1) - e i =
    if (digitCount number - 1 - i) / 3 = (digitCount number - 1 - (i + 1)) / 3 then 9 else 12
  one_le : 1 ≤ e 0
  le_width : e (digitCount number - 1) + glyphWidth ≤ render.width - 1
  pixel_eq : ∀ px < render.width, ∀ py < render.height, ∀ k < 4,
    render.pixels[(py * render.width + px) * 4 + k]? =
      some (if Inked number e px py then 0xFF else 0x00)

/-- The reference image as a picture. -/
def reference (number : ℕ) (e : ℕ → ℕ) : Cell → UInt8 :=
  fun p => colour (decide (Inked number e p.column p.row))

section Reference

variable {number x : ℕ}

/-- The digits do not overlap: each pixel of a box is decided by its own glyph. -/
theorem inked_iff {i : ℕ} (hi : i < digitCount number) {row col : ℕ} (hrow : row < glyphHeight)
    (hcol : col < glyphWidth) :
    Inked number (edge x (digitCount number)) (edge x (digitCount number) i + col) (1 + row) ↔
      glyphBitmaps[digit number i].bit row col = true := by
  constructor
  · rintro ⟨j, hj, c, hc, r, hr, hpx, hpy, hbit⟩
    have hkern : glyphKern = 1 := rfl
    -- A column belongs to one digit, because an advance is wider than a glyph.
    obtain rfl : j = i := by
      rcases lt_trichotomy i j with hij | rfl | hij
      · have hapart := edge_add_le x (digitCount number) hij
        omega
      · rfl
      · have hapart := edge_add_le x (digitCount number) hij
        omega
    obtain rfl : c = col := by omega
    obtain rfl : r = row := by omega
    exact hbit
  · intro hbit
    exact ⟨i, hi, col, hcol, row, hrow, rfl, rfl, hbit⟩

/-- The digits of a number, drawn at their edges, are within the image and show the
reference image. -/
theorem drawable_of_mem {width : ℕ}
    (hwithin : ∀ i < digitCount number, edge x (digitCount number) i + glyphWidth ≤ width) :
    ∀ placed ∈ placements x (rchunks 3 (digits number)).reverse,
      Drawable width 1 (reference number (edge x (digitCount number))) placed := by
  intro placed hplaced
  rw [placements_rchunks, length_digits] at hplaced
  obtain ⟨i, hi, rfl⟩ := List.mem_mapIdx.mp hplaced
  rw [length_digits] at hi
  have hdigit : (digits number)[i] = digit number i := by simp [digits]
  refine ⟨hwithin i hi, fun row hrow col hcol k _ => ?_⟩
  simp only [reference, hdigit]
  congr 1
  rw [Bool.eq_iff_iff, decide_eq_true_iff]
  exact inked_iff hi hrow hcol

/-- Outside the boxes of the digits the reference image is transparent. -/
theorem reference_of_notMem {p : Cell} (hchannel : p.channel < 4)
    (h : p ∉ ⋃ placed ∈ placements x (rchunks 3 (digits number)).reverse, box placed.1 1) :
    reference number (edge x (digitCount number)) p = 0 := by
  have hnot : ¬ Inked number (edge x (digitCount number)) p.column p.row := by
    rintro ⟨i, hi, c, hc, r, hr, hpx, hpy, -⟩
    apply h
    rw [placements_rchunks, length_digits]
    simp only [Set.mem_iUnion, exists_prop]
    refine ⟨_, List.mem_mapIdx.mpr ⟨i, by rwa [length_digits], rfl⟩, ?_⟩
    exact ⟨by omega, by omega, by omega, by omega, hchannel⟩
  simp [reference, hnot, colour]

/-- Drawing the digits on a transparent image gives the reference image. -/
theorem painted_reference {p : Cell} (hchannel : p.channel < 4) :
    painted (⋃ placed ∈ placements x (rchunks 3 (digits number)).reverse, box placed.1 1)
        (reference number (edge x (digitCount number))) (fun _ => 0) p =
      reference number (edge x (digitCount number)) p := by
  by_cases hdrawn : p ∈ ⋃ placed ∈ placements x (rchunks 3 (digits number)).reverse, box placed.1 1
  · exact painted_of_mem hdrawn
  · rw [painted_of_notMem hdrawn, reference_of_notMem hchannel hdrawn]

end Reference

/-- A sixty-four bit number has at most twenty digits. -/
theorem digitCount_le (number : UInt64) : digitCount number.toNat ≤ 20 :=
  Nat.log_lt_of_lt_pow' (by norm_num) (lt_trans number.toNat_lt (by norm_num))

/-- The groups of the number's text are the groups of its digits. -/
theorem mapM_fromUtf8 (number : ℕ) :
    (rchunks 3 (asBytes number.repr)).reverse.mapM fromUtf8 =
      .ok ((rchunks 3 (digits number)).reverse.map text) := by
  rw [repr_eq_text, asBytes_text, rchunks_map, ← List.map_reverse]
  generalize (rchunks 3 (digits number)).reverse = groups
  induction groups with
  | nil => rfl
  | cons group groups ih =>
      rw [List.map_cons, List.mapM_cons, fromUtf8_digits, ok_bind, ih]
      rfl

theorem usize_eq_ok_iff {n m : ℕ} : usize n = .ok m ↔ n < 2 ^ 64 ∧ n = m := by
  unfold usize
  split <;> simp_all

theorem size_eq_of_textSize {n : ℕ} {size : ℕ × ℕ} (h : textSize n = .ok size) :
    size = (n * (glyphWidth + glyphKern), glyphHeight) := by
  obtain ⟨width, hwidth, hsize⟩ := bind_eq_ok_iff.mp h
  rw [← (usize_eq_ok_iff.mp hwidth).2] at hsize
  exact (Except.ok.inj hsize).symm

theorem width_eq_of_imageWidth {len reserveWidth textWidth width : ℕ}
    (h : imageWidth len reserveWidth textWidth = .ok width) :
    width = 2 + textWidth + groupSpacing * max (reserveWidth / 3) (len / 3) := by
  simp only [imageWidth, bind_eq_ok_iff, usize_eq_ok_iff] at h
  obtain ⟨spacing, ⟨-, hspacing⟩, padded, ⟨-, hpadded⟩, -, hwidth⟩ := h
  rw [← hwidth, ← hpadded, ← hspacing]

/-- Only an image that fits is rendered. -/
theorem imageFits_of_render {number reserveWidth : UInt64} {render : Render}
    (h : renderSeparatedNumber number reserveWidth = .ok render) :
    ImageFits (digitCount number.toNat) reserveWidth.toNat := by
  have hlen : number.toNat.repr.utf8ByteSize = digitCount number.toNat := by
    rw [repr_eq_text, utf8ByteSize_text, length_digits]
  simp only [renderSeparatedNumber, hlen, mapM_fromUtf8, ok_bind, bind_eq_ok_iff,
    usize_eq_ok_iff] at h
  obtain ⟨size, htext, width, himage, height, ⟨-, hheight⟩, area, ⟨-, harea⟩, bytes, ⟨-, hbytes⟩,
    pixels, hzeroed, -⟩ := h
  rw [size_eq_of_textSize htext] at hheight himage
  have hwidth : width = totalWidth (digitCount number.toNat) reserveWidth.toNat :=
    width_eq_of_imageWidth himage
  -- the allocation is what refuses a larger image
  have hcapacity : bytes < 2 ^ 63 := by
    by_contra hlarge
    rw [zeroed, if_neg hlarge] at hzeroed
    cases hzeroed
  show totalWidth (digitCount number.toNat) reserveWidth.toNat * 18 * 4 < 2 ^ 63
  rw [← hwidth]
  have heighteen : 18 = height := hheight
  calc width * 18 * 4 = bytes := by rw [← hbytes, ← harea, ← heighteen]
    _ < 2 ^ 63 := hcapacity

/-- What the function computes before its loop, and the loop. -/
theorem renderSeparatedNumber_eq {number reserveWidth : UInt64} {pixels : Array UInt8}
    (hfits : ImageFits (digitCount number.toNat) reserveWidth.toNat)
    (hpixels : blitGroups (totalWidth (digitCount number.toNat) reserveWidth.toNat)
      ((rchunks 3 (digits number.toNat)).reverse.map text)
      (startEdge (digitCount number.toNat) reserveWidth.toNat)
      (Array.replicate (totalWidth (digitCount number.toNat) reserveWidth.toNat * 18 * 4) 0) =
        .ok pixels) :
    renderSeparatedNumber number reserveWidth = .ok {
      width := totalWidth (digitCount number.toNat) reserveWidth.toNat
      height := 18
      pixels := pixels } := by
  have hsize : number.toNat.repr.utf8ByteSize = digitCount number.toNat := by
    rw [repr_eq_text, utf8ByteSize_text, length_digits]
  have hglyph : glyphWidth + glyphKern = 9 := rfl
  have hbytes : totalWidth (digitCount number.toNat) reserveWidth.toNat * 18 * 4 < 2 ^ 63 := hfits
  have hbounds := hfits.bounds
  have htext := textSize_of_lt (n := max (digitCount number.toNat) reserveWidth.toNat)
    (by rw [hglyph]; omega)
  have hheight : usize (2 + glyphHeight) = .ok 18 := rfl
  simp only [renderSeparatedNumber, hsize, mapM_fromUtf8, htext, ok_bind,
    imageWidth_eq hfits, hheight, firstEdge_eq hfits]
  rw [usize_of_lt (by omega), ok_bind, usize_of_lt (by omega), ok_bind, zeroed, if_pos hbytes,
    ok_bind, hpixels]
  rfl

/-- A buffer that shows the drawn digits is the reference image. -/
theorem depicts_of_shows {number reserveWidth : ℕ} {pixels : Array UInt8}
    (h : (raster (totalWidth (digitCount number) reserveWidth) 18 4).Shows pixels
      (painted (⋃ placed ∈ placements (startEdge (digitCount number) reserveWidth)
          (rchunks 3 (digits number)).reverse, box placed.1 1)
        (reference number (edge (startEdge (digitCount number) reserveWidth) (digitCount number)))
        fun _ => 0)) :
    Depicts ⟨totalWidth (digitCount number) reserveWidth, 18, pixels⟩ number
      (edge (startEdge (digitCount number) reserveWidth) (digitCount number)) := by
  have hpos := digitCount_pos number
  refine ⟨rfl, h.size_eq, ?_, ?_, ?_, edge_within (by omega), ?_⟩
  · intro i _ j _ hij
    exact lt_of_lt_of_le (Nat.lt_add_of_pos_right (by decide)) (edge_add_le _ _ hij)
  · intro i hi
    rw [edge_succ _ hi, Nat.add_sub_cancel_left]
  · simp only [edge, startEdge]
    omega
  · intro px hpx py hpy k hk
    have hcell := h.getElem?_index ⟨px, py, k⟩ ⟨hpx, hpy, hk⟩
    refine hcell.trans (congrArg some ?_)
    rw [painted_reference hk, reference, colour]
    simp only [decide_eq_true_eq]

/-- An image that fits is rendered, and it is the reference image of the number. -/
theorem exists_render_of_fits {number reserveWidth : UInt64}
    (hfits : ImageFits (digitCount number.toNat) reserveWidth.toNat) :
    ∃ render, renderSeparatedNumber number reserveWidth = .ok render ∧
      render.width = totalWidth (digitCount number.toNat) reserveWidth.toNat ∧
      Depicts render number.toNat
        (edge (startEdge (digitCount number.toNat) reserveWidth.toNat)
          (digitCount number.toNat)) := by
  have hsize : totalWidth (digitCount number.toNat) reserveWidth.toNat * 18 * 4 < 2 ^ 63 := hfits
  have hwithin : ∀ i < digitCount number.toNat,
      edge (startEdge (digitCount number.toNat) reserveWidth.toNat) (digitCount number.toNat) i +
        glyphWidth ≤ totalWidth (digitCount number.toNat) reserveWidth.toNat :=
    fun i hi => le_trans (edge_within hi) (Nat.sub_le _ 1)
  have hheight : 1 + glyphHeight ≤ 18 := by decide
  obtain ⟨pixels, hpixels, hshows⟩ := paints_blitGroups hheight (by omega)
    (fun group hgroup => ne_nil_of_mem_rchunks (List.mem_reverse.mp hgroup))
    (drawable_of_mem hwithin) _ _ (Layout.shows_replicate _ 0)
  exact ⟨_, renderSeparatedNumber_eq hfits hpixels, rfl, depicts_of_shows hshows⟩

/-- **The rendered image is exactly the reference image** of the number, with no
index out of range and no arithmetic step outside its type. -/
theorem render_reference (number reserveWidth : UInt64) (h : reserveWidth ≤ 2 ^ 50) :
    ∃ render e, renderSeparatedNumber number reserveWidth = .ok render ∧
      Depicts render number.toNat e := by
  have hreserve : reserveWidth.toNat ≤ 2 ^ 50 := UInt64.le_iff_toNat_le.mp h
  have hlen : digitCount number.toNat ≤ 2 ^ 50 := (digitCount_le number).trans (by norm_num)
  obtain ⟨render, hrender, -, hdepicts⟩ := exists_render_of_fits (imageFits_of_le hlen hreserve)
  exact ⟨render, _, hrender, hdepicts⟩

/-- A count of four digits in an image for six. -/
theorem render_reference_four_digits :
    ∃ render e, renderSeparatedNumber 1234 6 = .ok render ∧ Depicts render 1234 e :=
  render_reference 1234 6 (by decide)

end VisitorCounter

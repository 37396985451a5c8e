import VisitorCounter.Readback

/-!
# Right alignment

The image is laid out from the left, and its first edge is chosen such that the
number should end up at the right border.  The choice allows for one space for
every three digits of the number, but there are spaces only between groups: when
the digits make up full groups, one space too few is left on the left.  Such a
number stands three pixels further to the left than others do.

## Main Definitions

* `fromRight`, `rightMargin`: where the digits are, seen from the right
* `shift`: how far a number of so many digits is out of place

## Main Results

* `edge_add_shift`, `rightMargin_eq`: the digits are out of place by the shift
* `exists_render_iff`: which images are rendered
* `right_aligned_iff`: two numbers are aligned unless just one of them has full groups
-/

namespace VisitorCounter

open Font

/-- The left edge of the digit with so many digits on its right. -/
def fromRight (number : ℕ) (e : ℕ → ℕ) (k : ℕ) : ℕ := e (digitCount number - 1 - k)

/-- The distance from the right edge of the last glyph to the right border. -/
def rightMargin (render : Render) (number : ℕ) (e : ℕ → ℕ) : ℕ :=
  render.width - (fromRight number e 0 + glyphWidth)

/-- The spaces that the first edge allows for, less those that are left between groups. -/
def shift (len : ℕ) : ℕ := groupSpacing * (len / 3 - (len - 1) / 3)

/-- Only full groups are out of place. -/
theorem shift_eq {len : ℕ} (hlen : 0 < len) :
    shift len = if 3 ∣ len then groupSpacing else 0 := by
  simp only [shift, groupSpacing]
  split <;> omega

theorem shift_eq_shift_iff {len len' : ℕ} (hlen : 0 < len) (hlen' : 0 < len') :
    shift len = shift len' ↔ (3 ∣ len ↔ 3 ∣ len') := by
  have hspacing : groupSpacing = 3 := rfl
  rw [shift_eq hlen, shift_eq hlen', hspacing]
  split <;> split <;> simp_all

/-! ### The layout -/

section Layout

variable {len reserveWidth : ℕ}

/-- With reserved space the size of the image does not depend on the number. -/
theorem totalWidth_of_le (h : len ≤ reserveWidth) :
    totalWidth len reserveWidth =
      2 + reserveWidth * (glyphWidth + glyphKern) + groupSpacing * (reserveWidth / 3) := by
  rw [totalWidth, max_eq_right h, max_eq_left (Nat.div_le_div_right h)]

/-- The left edge that the reserved width keeps for a digit. -/
def reservedEdge (reserveWidth k : ℕ) : ℕ :=
  1 + (reserveWidth - 1 - k) * (glyphWidth + glyphKern) +
    groupSpacing * (reserveWidth / 3 - k / 3)

/-- **Every digit is out of its reserved place by the shift.** -/
theorem edge_add_shift (h : len ≤ reserveWidth) {k : ℕ} (hk : k < len) :
    edge (startEdge len reserveWidth) len (len - 1 - k) + shift len =
      reservedEdge reserveWidth k := by
  simp only [edge, startEdge, shift, reservedEdge, glyphWidth, glyphKern, groupSpacing]
  omega

/-- **The last glyph ends two pixels and the shift before the right border.** -/
theorem totalWidth_sub_edge (hlen : 0 < len) :
    totalWidth len reserveWidth -
      (edge (startEdge len reserveWidth) len (len - 1) + glyphWidth) = 2 + shift len := by
  simp only [totalWidth, edge, startEdge, shift, glyphWidth, glyphKern, groupSpacing]
  omega

end Layout

/-! ### The rendered images -/

section Rendered

variable {number reserveWidth : UInt64} {render : Render}

/-- Every rendered image depicts its number at the edges of the layout. -/
theorem depicts_of_render (h : renderSeparatedNumber number reserveWidth = .ok render) :
    render.width = totalWidth (digitCount number.toNat) reserveWidth.toNat ∧
      Depicts render number.toNat
        (edge (startEdge (digitCount number.toNat) reserveWidth.toNat)
          (digitCount number.toNat)) := by
  obtain ⟨render', h', hlayout⟩ := exists_render_of_fits (imageFits_of_render h)
  obtain rfl : render = render' := Except.ok.inj (h.symm.trans h')
  exact hlayout

/-- **Exactly the images that fit are rendered**, with arithmetic that is checked for
overflow.  A release build wraps around and renders some more, for reserve widths near
`2 ^ 64 / 10`. -/
theorem exists_render_iff : (∃ render, renderSeparatedNumber number reserveWidth = .ok render) ↔
    ImageFits (digitCount number.toNat) reserveWidth.toNat := by
  constructor
  · rintro ⟨render, h⟩
    exact imageFits_of_render h
  · intro hfits
    obtain ⟨render, h, -⟩ := exists_render_of_fits hfits
    exact ⟨render, h⟩

variable {e : ℕ → ℕ}

theorem rightMargin_eq (h : renderSeparatedNumber number reserveWidth = .ok render)
    (hdepicts : Depicts render number.toNat e) :
    rightMargin render number.toNat e = 2 + shift (digitCount number.toNat) := by
  obtain ⟨hwidth, hlayout⟩ := depicts_of_render h
  have hpos := digitCount_pos number.toNat
  have hedge := (hdepicts.unique hlayout).2 (digitCount number.toNat - 1 - 0) (by omega)
  rw [rightMargin, fromRight, hwidth, hedge]
  exact totalWidth_sub_edge hpos

theorem fromRight_add_shift (h : renderSeparatedNumber number reserveWidth = .ok render)
    (hdepicts : Depicts render number.toNat e)
    (hlen : digitCount number.toNat ≤ reserveWidth.toNat) {k : ℕ}
    (hk : k < digitCount number.toNat) :
    fromRight number.toNat e k + shift (digitCount number.toNat) =
      reservedEdge reserveWidth.toNat k := by
  have hlayout := (depicts_of_render h).2
  have hedge := (hdepicts.unique hlayout).2 (digitCount number.toNat - 1 - k) (by omega)
  rw [fromRight, hedge]
  exact edge_add_shift hlen hk

end Rendered

/-- Two images have one size, and their digits stand in the same columns, counted
from the right. -/
structure Aligned (render render' : Render) (number number' : ℕ) (e e' : ℕ → ℕ) : Prop where
  width_eq : render.width = render'.width
  height_eq : render.height = render'.height
  fromRight_eq : ∀ k < digitCount number, k < digitCount number' →
    fromRight number e k = fromRight number' e' k

/-- **Two numbers are aligned unless just one of them has full groups of three.** -/
theorem right_aligned_iff {number number' reserveWidth reserveWidth' : UInt64}
    {render render' : Render} (h : renderSeparatedNumber number reserveWidth = .ok render)
    (h' : renderSeparatedNumber number' reserveWidth' = .ok render') :
    ∃ e e', Depicts render number.toNat e ∧ Depicts render' number'.toNat e' ∧
      (rightMargin render number.toNat e = rightMargin render' number'.toNat e' ↔
        (3 ∣ digitCount number.toNat ↔ 3 ∣ digitCount number'.toNat)) ∧
      (reserveWidth = reserveWidth' → digitCount number.toNat ≤ reserveWidth.toNat →
        digitCount number'.toNat ≤ reserveWidth.toNat →
        (Aligned render render' number.toNat number'.toNat e e' ↔
          (3 ∣ digitCount number.toNat ↔ 3 ∣ digitCount number'.toNat))) := by
  obtain ⟨hwidth, hdepicts⟩ := depicts_of_render h
  obtain ⟨hwidth', hdepicts'⟩ := depicts_of_render h'
  have hpos := digitCount_pos number.toNat
  have hpos' := digitCount_pos number'.toNat
  refine ⟨_, _, hdepicts, hdepicts', ?_, ?_⟩
  · rw [rightMargin_eq h hdepicts, rightMargin_eq h' hdepicts', Nat.add_left_cancel_iff]
    exact shift_eq_shift_iff hpos hpos'
  · rintro rfl hlen hlen'
    rw [← shift_eq_shift_iff hpos hpos']
    constructor
    · intro haligned
      -- the last digits are enough to see the two shifts
      have hlast := fromRight_add_shift h hdepicts hlen hpos
      have hlast' := fromRight_add_shift h' hdepicts' hlen' hpos'
      rw [haligned.fromRight_eq 0 hpos hpos', ← hlast'] at hlast
      exact Nat.add_left_cancel hlast
    · intro hshift
      refine ⟨?_, ?_, fun k hk hk' => ?_⟩
      · rw [hwidth, hwidth', totalWidth_of_le hlen, totalWidth_of_le hlen']
      · rw [hdepicts.height_eq, hdepicts'.height_eq]
      · have hplace := fromRight_add_shift h hdepicts hlen hk
        have hplace' := fromRight_add_shift h' hdepicts' hlen' hk'
        rw [← hplace', hshift] at hplace
        exact Nat.add_right_cancel hplace

/-- Two digits and four digits are aligned in images for five. -/
theorem right_aligned_iff_two_and_four_digits :
    ∃ render render' e e', renderSeparatedNumber 12 5 = .ok render ∧
      renderSeparatedNumber 1234 5 = .ok render' ∧
      Depicts render 12 e ∧ Depicts render' 1234 e' ∧
      rightMargin render 12 e = rightMargin render' 1234 e' ∧
      Aligned render render' 12 1234 e e' := by
  obtain ⟨render, h⟩ := exists_render_iff.mpr
    (show ImageFits (digitCount (12 : UInt64).toNat) (5 : UInt64).toNat by decide)
  obtain ⟨render', h'⟩ := exists_render_iff.mpr
    (show ImageFits (digitCount (1234 : UInt64).toNat) (5 : UInt64).toNat by decide)
  obtain ⟨e, e', hdepicts, hdepicts', hmargin, haligned⟩ := right_aligned_iff h h'
  exact ⟨render, render', e, e', h, h', hdepicts, hdepicts', hmargin.mpr (by decide),
    (haligned rfl (by decide) (by decide)).mpr (by decide)⟩

/-- When the counter goes from two digits to three, its digits jump to the left. -/
theorem third_digit_jumps :
    ∃ render render', renderSeparatedNumber 99 5 = .ok render ∧
      renderSeparatedNumber 999 5 = .ok render' ∧
      (∃ e, Depicts render 99 e) ∧ (∃ e', Depicts render' 999 e') ∧
      ∀ e e', Depicts render 99 e → Depicts render' 999 e' →
        fromRight 99 e 0 = 40 ∧ fromRight 999 e' 0 = 37 ∧
          rightMargin render 99 e = 2 ∧ rightMargin render' 999 e' = 5 ∧
          ¬ Aligned render render' 99 999 e e' := by
  have hfits : ImageFits (digitCount (99 : UInt64).toNat) (5 : UInt64).toNat := by decide
  have hfits' : ImageFits (digitCount (999 : UInt64).toNat) (5 : UInt64).toNat := by decide
  obtain ⟨render, h⟩ := exists_render_iff.mpr hfits
  obtain ⟨render', h'⟩ := exists_render_iff.mpr hfits'
  refine ⟨render, render', h, h', ⟨_, (depicts_of_render h).2⟩, ⟨_, (depicts_of_render h').2⟩, ?_⟩
  intro e e' hdepicts hdepicts'
  have hshift : shift (digitCount (99 : UInt64).toNat) = 0 := by decide
  have hshift' : shift (digitCount (999 : UInt64).toNat) = 3 := by decide
  have hreserved : reservedEdge (5 : UInt64).toNat 0 = 40 := by decide
  have hedge := fromRight_add_shift h hdepicts (by decide) (digitCount_pos _)
  have hedge' := fromRight_add_shift h' hdepicts' (by decide) (digitCount_pos _)
  rw [hshift, hreserved] at hedge
  rw [hshift', hreserved] at hedge'
  have hmargin := rightMargin_eq h hdepicts
  have hmargin' := rightMargin_eq h' hdepicts'
  rw [hshift] at hmargin
  rw [hshift'] at hmargin'
  have hjump : fromRight 999 e' 0 = 37 := Nat.add_right_cancel (m := 3) hedge'
  refine ⟨hedge, hjump, hmargin, hmargin', fun haligned => ?_⟩
  have heq := haligned.fromRight_eq 0 (digitCount_pos _) (digitCount_pos _)
  exact absurd (hedge.symm.trans (heq.trans hjump)) (by decide)

end VisitorCounter

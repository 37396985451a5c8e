import VisitorCounter.Render
import VisitorCounter.Library.TextLine

/-!
# Reading the counter image

The counter image can be read back: every glyph has ink in its first column, no
two glyphs are the same, and the digits are apart.  So an image shows at most
one number, and the digits of that number can stand at one place only.

## Main Definitions

* `Font.alphabet`: the glyphs as symbols on a line
* `placedDigits`: the line that an image shows

## Main Results

* `Depicts.mem_ink_iff`: the ink of the line are the white pixels of the image
* `Depicts.unique`: an image depicts at most one number, at one place
* `image_determines_number`: different numbers have different images
-/

namespace VisitorCounter

open TextLine Font

/-! ### The glyphs as symbols -/

namespace Font

/-- The foreground of a glyph. -/
def shape (d : Fin glyphCount) : Set (ℕ × ℕ) :=
  {p | p.1 < glyphWidth ∧ p.2 < glyphHeight ∧ (glyphBitmaps.get d).bit p.2 p.1 = true}

theorem shape_inked (d : Fin glyphCount) : ∃ row, (0, row) ∈ shape d := by
  have hcolumn : ∀ d : Fin glyphCount, ∃ row < glyphHeight,
      (glyphBitmaps.get d).bit row 0 = true := by decide
  obtain ⟨row, hrow, hbit⟩ := hcolumn d
  exact ⟨row, Nat.succ_pos 7, hrow, hbit⟩

/-- Pixels, by column and row, that are enough to tell the glyphs apart. -/
def probes : List (Fin 8 × Fin 16) := [(0, 0), (0, 3), (5, 6), (4, 9)]

/-- What a glyph has at the probes. -/
def probed (d : Fin glyphCount) : List Bool :=
  probes.map fun p => (glyphBitmaps.get d).bit p.2 p.1

theorem probed_injective : Function.Injective probed := by decide

/-- **No two glyphs are the same.** -/
theorem shape_injective : Function.Injective shape := by
  intro d d' h
  apply probed_injective
  refine List.map_congr_left fun p _ => ?_
  have hshape : ∀ d, (p.1.val, p.2.val) ∈ shape d ↔ (glyphBitmaps.get d).bit p.2 p.1 = true :=
    fun d => ⟨fun hp => hp.2.2, fun hbit => ⟨p.1.isLt, p.2.isLt, hbit⟩⟩
  rw [Bool.eq_iff_iff, ← hshape d, ← hshape d', h]

/-- **The glyphs as symbols on a line.** -/
def alphabet : Alphabet (Fin glyphCount) ℕ where
  width := glyphWidth
  shape := shape
  within _ _ hp := hp.1
  inked := shape_inked
  injective := shape_injective

end Font

/-! ### The line of an image -/

/-- The digits of a number at given left edges. -/
def placedDigits (number : ℕ) (e : ℕ → ℕ) : List (ℕ × Fin glyphCount) :=
  (List.range (digitCount number)).map fun i => (e i, digit number i)

theorem map_snd_placedDigits (number : ℕ) (e : ℕ → ℕ) :
    (placedDigits number e).map Prod.snd = digits number := by
  rw [placedDigits, List.map_map]
  rfl

/-- The ink of the digits is what is white in the reference image. -/
theorem mem_ink_placedDigits {number : ℕ} {e : ℕ → ℕ} {column row : ℕ} :
    (column, row) ∈ alphabet.ink (placedDigits number e) ↔ Inked number e column (1 + row) := by
  constructor
  · rintro ⟨placed, hplaced, hle, hcolumn, hrow, hbit⟩
    obtain ⟨i, hi, rfl⟩ := List.mem_map.mp hplaced
    exact ⟨i, List.mem_range.mp hi, _, hcolumn, row, hrow, (Nat.add_sub_cancel' hle).symm, rfl,
      hbit⟩
  · rintro ⟨i, hi, c, hc, r, hr, hcolumn, hrow, hbit⟩
    obtain rfl : row = r := Nat.add_left_cancel hrow
    subst hcolumn
    refine ⟨_, List.mem_map.mpr ⟨i, List.mem_range.mpr hi, rfl⟩, Nat.le_add_right _ _, ?_⟩
    show (e i + c - e i, row) ∈ shape (digit number i)
    rw [Nat.add_sub_cancel_left]
    exact ⟨hc, hr, hbit⟩

/-- The value of digits, from left to right. -/
theorem foldl_digits (number : ℕ) :
    (digits number).foldl (fun value d => 10 * value + d.val) 0 = number := by
  induction number using Nat.strongRecOn with
  | ind number ih =>
      by_cases h : 10 ≤ number
      · rw [digits_of_le h, List.foldl_append, ih (number / 10) (by omega)]
        exact Nat.div_add_mod number 10
      · have hcount : digitCount number = 1 := by rw [digitCount, Nat.log_of_lt (by omega)]
        rw [digits, hcount]
        simp only [List.range_one, List.map_singleton, digit, hcount, List.foldl_cons,
          List.foldl_nil]
        omega

/-- A number is determined by its digits. -/
theorem digits_injective : Function.Injective digits := by
  intro number number' h
  rw [← foldl_digits number, h, foldl_digits]

namespace Depicts

variable {render : Render} {number number' : ℕ} {e e' : ℕ → ℕ}

/-- The digits are an advance apart. -/
theorem edge_add_le (h : Depicts render number e) {i j : ℕ} (hij : i < j)
    (hj : j < digitCount number) : e i + glyphWidth ≤ e j := by
  have hstep : ∀ k, k + 1 < digitCount number → e k + glyphWidth ≤ e (k + 1) := by
    intro k hk
    have hadvance := h.advance k hk
    have hglyph : glyphWidth = 8 := rfl
    split at hadvance <;> omega
  induction j, hij using Nat.le_induction with
  | base => exact hstep i hj
  | succ j hij ih =>
      have hnext := hstep j hj
      have hbefore := ih (by omega)
      omega

/-- The digits of a depicted number do not overlap. -/
theorem apart (h : Depicts render number e) : alphabet.Apart (placedDigits number e) := by
  apply List.pairwise_map.mpr
  apply List.pairwise_lt_range.imp_of_mem
  intro i j _ hj hij
  exact h.edge_add_le hij (List.mem_range.mp hj)

/-- What is white is within the image. -/
theorem lt_width (h : Depicts render number e) {px py : ℕ} (hinked : Inked number e px py) :
    px < render.width := by
  obtain ⟨i, hi, c, hc, r, -, rfl, -, -⟩ := hinked
  have hlast : e i ≤ e (digitCount number - 1) :=
    h.strictMonoOn.monotoneOn hi (Set.mem_Iio.mpr (by omega)) (by omega)
  have hwithin := h.le_width
  omega

/-- **The ink of the line are the white pixels of the image.** -/
theorem mem_ink_iff (h : Depicts render number e) {column row : ℕ} :
    (column, row) ∈ alphabet.ink (placedDigits number e) ↔
      column < render.width ∧ 1 + row < render.height ∧
        render.pixels[((1 + row) * render.width + column) * 4]? = some 0xFF := by
  rw [mem_ink_placedDigits]
  constructor
  · intro hinked
    have hcolumn := h.lt_width hinked
    have hrow : 1 + row < render.height := by
      obtain ⟨-, -, -, -, r, hr, -, hpy, -⟩ := hinked
      have hglyph : glyphHeight = 16 := rfl
      rw [h.height_eq]
      omega
    refine ⟨hcolumn, hrow, ?_⟩
    have hpixel := h.pixel_eq column hcolumn (1 + row) hrow 0 (by decide)
    rwa [if_pos hinked] at hpixel
  · rintro ⟨hcolumn, hrow, hwhite⟩
    by_contra hinked
    have hpixel := h.pixel_eq column hcolumn (1 + row) hrow 0 (by decide)
    rw [if_neg hinked] at hpixel
    exact absurd (hwhite.symm.trans hpixel) (by decide)

/-- **An image depicts at most one number, at one place.** -/
theorem unique (h : Depicts render number e) (h' : Depicts render number' e') :
    number = number' ∧ ∀ i < digitCount number, e i = e' i := by
  have hink : alphabet.ink (placedDigits number e) = alphabet.ink (placedDigits number' e') := by
    ext ⟨column, row⟩
    rw [h.mem_ink_iff, h'.mem_ink_iff]
  have hline : placedDigits number e = placedDigits number' e' :=
    alphabet.ink_injOn h.apart h'.apart hink
  have hnumber : number = number' := by
    apply digits_injective
    rw [← map_snd_placedDigits number e, hline, map_snd_placedDigits]
  subst hnumber
  refine ⟨rfl, fun i hi => ?_⟩
  have hplaced := List.map_inj_left.mp hline i (List.mem_range.mpr hi)
  exact congrArg Prod.fst hplaced

end Depicts

/-- **Different numbers have different images**, whatever their digit counts are and
on whichever side of the reserved width they lie. -/
theorem image_determines_number (number number' reserveWidth : UInt64)
    (h : reserveWidth ≤ 2 ^ 50) :
    ∃ render render', renderSeparatedNumber number reserveWidth = .ok render ∧
      renderSeparatedNumber number' reserveWidth = .ok render' ∧
      (render.width = render'.width → render.height = render'.height →
        render.pixels = render'.pixels → number = number') := by
  have hfits : ∀ number : UInt64, ImageFits (digitCount number.toNat) reserveWidth.toNat :=
    fun number => imageFits_of_le ((digitCount_le number).trans (by norm_num))
      (UInt64.le_iff_toNat_le.mp h)
  obtain ⟨⟨width, height, pixels⟩, hrender, -, hdepicts⟩ := exists_render_of_fits (hfits number)
  obtain ⟨⟨width', height', pixels'⟩, hrender', -, hdepicts'⟩ :=
    exists_render_of_fits (hfits number')
  refine ⟨_, _, hrender, hrender', ?_⟩
  rintro rfl rfl rfl
  exact UInt64.toNat_inj.mp (hdepicts.unique hdepicts').1

/-- A count of three digits and one of four, in images for four. -/
theorem image_determines_number_four_digits :
    ∃ render render', renderSeparatedNumber 234 4 = .ok render ∧
      renderSeparatedNumber 1234 4 = .ok render' ∧
      (render.width = render'.width → render.height = render'.height →
        render.pixels = render'.pixels → (234 : UInt64) = 1234) :=
  image_determines_number 234 1234 4 (by decide)

end VisitorCounter

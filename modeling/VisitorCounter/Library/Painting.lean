import Mathlib.Tactic
import Mathlib.Data.Set.Piecewise

/-!
# Painting into a buffer

A picture gives every cell a value, and a layout says at which index of a flat
buffer each cell lies.  Code that writes into the buffer paints a region when it
succeeds on every buffer of the right size, gives the cells of the region the
values of a picture, and leaves all other cells as they were.  Painted regions
compose, so a loop over writes paints the union of what its steps paint.

## Main Definitions

* `Layout`: where the cells lie in a buffer
* `Layout.Shows`: a buffer has a picture in its cells
* `Layout.Paints`: code paints a picture over a region
* `raster`: the layout of an image row after row

## Main Results

* `Layout.Paints.seq`, `Layout.Paints.foldlM`: the rules for sequences and loops
* `Layout.paints_write`: a write paints its cell
-/

namespace Painting

section Painted

variable {ι α : Type*} {region more : Set ι} {picture below : ι → α} {p : ι}

open scoped Classical in
/-- A picture painted within a region over what was below. -/
noncomputable def painted (region : Set ι) (picture below : ι → α) : ι → α :=
  region.piecewise picture below

theorem painted_of_mem (h : p ∈ region) : painted region picture below p = picture p := by
  classical
  exact Set.piecewise_eq_of_mem region picture below h

theorem painted_of_notMem (h : p ∉ region) : painted region picture below p = below p := by
  classical
  exact Set.piecewise_eq_of_notMem region picture below h

@[simp] theorem painted_empty : painted ∅ picture below = below := by
  ext p
  exact painted_of_notMem (Set.notMem_empty p)

/-- Painting twice is painting once over both regions. -/
theorem painted_painted : painted more picture (painted region picture below) =
    painted (region ∪ more) picture below := by
  ext p
  by_cases hmore : p ∈ more
  · rw [painted_of_mem hmore, painted_of_mem (Set.mem_union_right region hmore)]
  · rw [painted_of_notMem hmore]
    by_cases hregion : p ∈ region
    · rw [painted_of_mem hregion, painted_of_mem (Set.mem_union_left more hregion)]
    · rw [painted_of_notMem hregion, painted_of_notMem (by simp [hregion, hmore])]

/-- Only the picture within the region matters. -/
theorem painted_congr {other : ι → α} (h : Set.EqOn picture other region) :
    painted region picture below = painted region other below := by
  ext p
  by_cases hp : p ∈ region
  · rw [painted_of_mem hp, painted_of_mem hp, h hp]
  · rw [painted_of_notMem hp, painted_of_notMem hp]

end Painted

/-- Where the cells of a picture lie in a buffer. -/
structure Layout (ι : Type*) where
  size : ℕ
  cells : Set ι
  index : ι → ℕ
  index_lt : ∀ p ∈ cells, index p < size
  index_injOn : Set.InjOn index cells

/-- A write with a bounds check. -/
def write {ε α : Type*} (outOfBounds : ε) (buffer : Array α) (i : ℕ) (a : α) :
    Except ε (Array α) :=
  if h : i < buffer.size then .ok (buffer.set i a h) else .error outOfBounds

namespace Layout

variable {ι α β ε : Type*} (layout : Layout ι)

/-- A buffer has a picture in its cells. -/
structure Shows (buffer : Array α) (picture : ι → α) : Prop where
  size_eq : buffer.size = layout.size
  getElem?_index : ∀ p ∈ layout.cells, buffer[layout.index p]? = some (picture p)

/-- Code paints a picture over a region. -/
def Paints (code : Array α → Except ε (Array α)) (region : Set ι) (picture : ι → α) : Prop :=
  ∀ before below, layout.Shows before below →
    ∃ after, code before = .ok after ∧ layout.Shows after (painted region picture below)

/-- A buffer of one value shows it everywhere. -/
theorem shows_replicate (a : α) : layout.Shows (Array.replicate layout.size a) fun _ => a where
  size_eq := Array.size_replicate
  getElem?_index p hp := by
    rw [Array.getElem?_replicate, if_pos (layout.index_lt p hp)]

variable {layout} {code next : Array α → Except ε (Array α)} {region more : Set ι}
  {picture : ι → α}

theorem paints_pure :
    layout.Paints (fun buffer => (pure buffer : Except ε (Array α))) ∅ picture := by
  intro before below h
  exact ⟨before, rfl, by rwa [painted_empty]⟩

/-- **The rule for a sequence.** -/
theorem Paints.seq (first : layout.Paints code region picture)
    (second : layout.Paints next more picture) :
    layout.Paints (fun buffer => code buffer >>= next) (region ∪ more) picture := by
  intro before below h
  obtain ⟨between, hcode, hbetween⟩ := first before below h
  obtain ⟨after, hnext, hafter⟩ := second between _ hbetween
  refine ⟨after, ?_, by rwa [painted_painted] at hafter⟩
  show (code before).bind next = _
  rw [hcode]
  exact hnext

/-- Only the picture within the region matters. -/
theorem Paints.congr {other : ι → α} (h : layout.Paints code region picture)
    (heq : Set.EqOn picture other region) : layout.Paints code region other := by
  intro before below hbefore
  rw [← painted_congr heq]
  exact h before below hbefore

/-- **The rule for a loop**: it paints the union of what its steps paint. -/
theorem Paints.foldlM {step : Array α → β → Except ε (Array α)} {regions : β → Set ι} :
    ∀ {l : List β}, (∀ b ∈ l, layout.Paints (fun buffer => step buffer b) (regions b) picture) →
      layout.Paints (fun buffer => l.foldlM step buffer) (⋃ b ∈ l, regions b) picture
  | [], _ => by
      simpa using paints_pure
  | b :: l, h => by
      have first := h b List.mem_cons_self
      have rest := Paints.foldlM fun c hc => h c (List.mem_cons_of_mem b hc)
      have both := first.seq rest
      simp only [List.mem_cons, Set.iUnion_iUnion_eq_or_left, List.foldlM_cons]
      exact both

/-- **A write paints its cell.** -/
theorem paints_write (outOfBounds : ε) {p : ι} (hp : p ∈ layout.cells) :
    layout.Paints (fun buffer => write outOfBounds buffer (layout.index p) (picture p))
      {p} picture := by
  intro before below h
  have hlt : layout.index p < before.size := h.size_eq ▸ layout.index_lt p hp
  refine ⟨before.set _ (picture p) hlt, dif_pos hlt, by rw [Array.size_set, h.size_eq], ?_⟩
  intro q hq
  rw [Array.getElem?_set]
  by_cases heq : q = p
  · subst heq
    rw [if_pos rfl, painted_of_mem (Set.mem_singleton q)]
  · have hindex : layout.index p ≠ layout.index q := fun hindex =>
      heq (layout.index_injOn hq hp hindex.symm)
    rw [if_neg hindex, painted_of_notMem (Set.mem_singleton_iff.not.mpr heq), h.getElem?_index q hq]

end Layout

/-! ### Images row after row -/

/-- A cell of an image: one channel of one pixel. -/
@[ext] structure Cell where
  column : ℕ
  row : ℕ
  channel : ℕ
deriving DecidableEq, Repr

/-- The index of a cell when pixels lie row after row, each with all its channels. -/
def Cell.index (width depth : ℕ) (p : Cell) : ℕ :=
  (p.row * width + p.column) * depth + p.channel

/-- Two digits of a number in a mixed base. -/
theorem mul_add_inj {base a a' b b' : ℕ} (hb : b < base) (hb' : b' < base)
    (h : a * base + b = a' * base + b') : a = a' ∧ b = b' := by
  have hpos : 0 < base := by omega
  have hmod : b = b' := by
    have hrest := congrArg (· % base) h
    simpa [Nat.mul_add_mod', Nat.mod_eq_of_lt, hb, hb'] using hrest
  subst hmod
  exact ⟨Nat.eq_of_mul_eq_mul_right hpos (Nat.add_right_cancel h), rfl⟩

/-- A number in a mixed base is in range when its digits are. -/
theorem mul_add_lt {base a b n : ℕ} (ha : a < n) (hb : b < base) : a * base + b < n * base :=
  calc a * base + b < a * base + base := Nat.add_lt_add_left hb _
    _ = (a + 1) * base := (Nat.succ_mul a base).symm
    _ ≤ n * base := Nat.mul_le_mul_right base ha

/-- **The layout of an image row after row.** -/
def raster (width height depth : ℕ) : Layout Cell where
  size := width * height * depth
  cells := {p | p.column < width ∧ p.row < height ∧ p.channel < depth}
  index := Cell.index width depth
  index_lt p hp := by
    obtain ⟨hcolumn, hrow, hchannel⟩ := hp
    rw [Nat.mul_comm width height]
    exact mul_add_lt (mul_add_lt hrow hcolumn) hchannel
  index_injOn p hp q hq h := by
    obtain ⟨hpcolumn, -, hpchannel⟩ := hp
    obtain ⟨hqcolumn, -, hqchannel⟩ := hq
    obtain ⟨hpixel, hchannel⟩ := mul_add_inj hpchannel hqchannel h
    obtain ⟨hrow, hcolumn⟩ := mul_add_inj hpcolumn hqcolumn hpixel
    exact Cell.ext hcolumn hrow hchannel

end Painting

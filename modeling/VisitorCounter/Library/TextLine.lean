import Mathlib.Tactic

/-!
# Lines of symbols

Symbols stand on a line, each at its left edge, and what is seen of the line is
the ink of all of them.  A line can be read back from its ink when its symbols
are apart: the first inked column is the first edge, the columns from there on
show the first symbol, and what is left is the ink of the rest of the line.

## Main Definitions

* `Alphabet`: symbols that are told apart by their shapes
* `Alphabet.ink`: what is seen of a line
* `Alphabet.Apart`: the symbols of a line do not overlap

## Main Results

* `Alphabet.ink_injOn`: a line is determined by its ink
-/

namespace TextLine

variable {σ ρ : Type*}

/-- Symbols of one width.  A pixel of a shape is its column from the left edge and
its row; no shape begins with an empty column, and no two are the same. -/
structure Alphabet (σ ρ : Type*) where
  width : ℕ
  shape : σ → Set (ℕ × ρ)
  within : ∀ s, ∀ p ∈ shape s, p.1 < width
  inked : ∀ s, ∃ row, (0, row) ∈ shape s
  injective : Function.Injective shape

namespace Alphabet

variable (A : Alphabet σ ρ)

/-- What is seen of a line: the shape of each symbol, moved to its left edge. -/
def ink (line : List (ℕ × σ)) : Set (ℕ × ρ) :=
  {p | ∃ placed ∈ line, placed.1 ≤ p.1 ∧ (p.1 - placed.1, p.2) ∈ A.shape placed.2}

/-- Each symbol ends before the next ones begin. -/
def Apart (line : List (ℕ × σ)) : Prop :=
  line.Pairwise fun placed next => placed.1 + A.width ≤ next.1

variable {A} {placed : ℕ × σ} {line : List (ℕ × σ)} {column : ℕ} {row : ρ}

theorem mem_ink_cons : (column, row) ∈ A.ink (placed :: line) ↔
    (placed.1 ≤ column ∧ (column - placed.1, row) ∈ A.shape placed.2) ∨
      (column, row) ∈ A.ink line := by
  show (∃ other ∈ placed :: line, _) ↔ _
  rw [List.exists_mem_cons_iff]
  exact Iff.rfl

/-- There is ink at the left edge of every symbol. -/
theorem exists_mem_ink (A : Alphabet σ ρ) (h : placed ∈ line) :
    ∃ row, (placed.1, row) ∈ A.ink line := by
  obtain ⟨row, hrow⟩ := A.inked placed.2
  refine ⟨row, placed, h, le_refl _, ?_⟩
  show (placed.1 - placed.1, row) ∈ _
  rw [Nat.sub_self]
  exact hrow

/-- The ink of the rest of a line is to the right of the first symbol. -/
theorem Apart.add_width_le (h : A.Apart (placed :: line)) (hp : (column, row) ∈ A.ink line) :
    placed.1 + A.width ≤ column := by
  obtain ⟨next, hnext, hle, -⟩ := hp
  exact le_trans (List.rel_of_pairwise_cons h hnext) hle

/-- All ink is to the right of the first edge. -/
theorem Apart.edge_le (h : A.Apart (placed :: line))
    (hp : (column, row) ∈ A.ink (placed :: line)) : placed.1 ≤ column := by
  rcases mem_ink_cons.mp hp with ⟨hle, -⟩ | hrest
  · exact hle
  · exact le_trans (Nat.le_add_right _ _) (h.add_width_le hrest)

/-- **The columns of the first symbol show its shape.** -/
theorem Apart.mem_shape_iff (h : A.Apart (placed :: line)) (hcolumn : column < A.width) :
    (placed.1 + column, row) ∈ A.ink (placed :: line) ↔ (column, row) ∈ A.shape placed.2 := by
  rw [mem_ink_cons, Nat.add_sub_cancel_left]
  constructor
  · rintro (⟨-, hshape⟩ | hrest)
    · exact hshape
    · have hright := h.add_width_le hrest
      omega
  · intro hshape
    exact Or.inl ⟨Nat.le_add_right _ _, hshape⟩

/-- **The columns behind the first symbol show the rest of the line.** -/
theorem Apart.mem_ink_tail_iff (h : A.Apart (placed :: line)) :
    (column, row) ∈ A.ink line ↔
      placed.1 + A.width ≤ column ∧ (column, row) ∈ A.ink (placed :: line) := by
  rw [mem_ink_cons]
  constructor
  · intro hrest
    exact ⟨h.add_width_le hrest, Or.inr hrest⟩
  · rintro ⟨hright, ⟨-, hshape⟩ | hrest⟩
    · have hwithin := A.within _ _ hshape
      have : column - placed.1 < A.width := hwithin
      omega
    · exact hrest

/-- **The first edge is the first inked column.** -/
theorem Apart.edge_le_edge {placed' : ℕ × σ} {line' : List (ℕ × σ)}
    (h : A.Apart (placed :: line)) (hink : A.ink (placed :: line) = A.ink (placed' :: line')) :
    placed.1 ≤ placed'.1 := by
  obtain ⟨row, hrow⟩ := exists_mem_ink A (List.mem_cons_self (a := placed') (l := line'))
  rw [← hink] at hrow
  exact h.edge_le hrow

/-- A line without symbols is the only one without ink. -/
theorem ink_cons_ne_nil : A.ink (placed :: line) ≠ A.ink [] := by
  intro hink
  obtain ⟨row, hrow⟩ := exists_mem_ink A (List.mem_cons_self (a := placed) (l := line))
  rw [hink] at hrow
  obtain ⟨other, hother, -⟩ := hrow
  exact List.not_mem_nil hother

/-- **A line is determined by its ink.** -/
theorem ink_injOn (A : Alphabet σ ρ) : Set.InjOn A.ink {line | A.Apart line} := by
  intro line h line' h' hink
  induction line generalizing line' with
  | nil =>
      cases line' with
      | nil => rfl
      | cons placed' line' => exact absurd hink.symm ink_cons_ne_nil
  | cons placed line ih =>
      cases line' with
      | nil => exact absurd hink ink_cons_ne_nil
      | cons placed' line' =>
          have hedge : placed.1 = placed'.1 :=
            le_antisymm (Apart.edge_le_edge h hink) (Apart.edge_le_edge h' hink.symm)
          have hsymbol : placed.2 = placed'.2 := by
            apply A.injective
            ext ⟨column, row⟩
            by_cases hcolumn : column < A.width
            · rw [← Apart.mem_shape_iff h hcolumn, ← Apart.mem_shape_iff h' hcolumn, hink, hedge]
            · -- beyond their width both shapes are empty
              exact iff_of_false (fun hp => hcolumn (A.within _ _ hp))
                fun hp => hcolumn (A.within _ _ hp)
          have htail : A.ink line = A.ink line' := by
            ext ⟨column, row⟩
            rw [Apart.mem_ink_tail_iff h, Apart.mem_ink_tail_iff h', hink, hedge]
          rw [Prod.ext hedge hsymbol, ih h.of_cons h'.of_cons htail]

end Alphabet

end TextLine

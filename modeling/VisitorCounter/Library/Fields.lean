import Mathlib.Tactic

/-!
# Two fields in one stream

A pair of texts is written as one, the first field and then the second, with
nothing between them.  What is lost is the place of the boundary, and only that:
two pairs give the same stream exactly when they are equal or one is the other
with its boundary moved.

## Main Definitions

* `Shifted a b`: `b` is `a` with the boundary moved to the right

## Main Results

* `append_eq_append_iff_shifted`: when two pairs give the same stream
-/

namespace Fields

variable {α : Type*}

/-- The second pair is the first with the boundary moved to the right. -/
def Shifted (a b : List α × List α) : Prop := ∃ w, w ≠ [] ∧ b.1 = a.1 ++ w ∧ a.2 = w ++ b.2

/-- Moving the boundary lengthens the first field. -/
theorem Shifted.length_lt {a b : List α × List α} (h : Shifted a b) : a.1.length < b.1.length := by
  obtain ⟨w, hw, hfirst, -⟩ := h
  have hpos := List.length_pos_of_ne_nil hw
  rw [hfirst, List.length_append]
  omega

/-- Moving the boundary does not change the stream. -/
theorem Shifted.append_eq {a b : List α × List α} (h : Shifted a b) : a.1 ++ a.2 = b.1 ++ b.2 := by
  obtain ⟨w, -, hfirst, hsecond⟩ := h
  rw [hfirst, hsecond, List.append_assoc]

/-- **When two pairs give the same stream.** -/
theorem append_eq_append_iff_shifted {a b : List α × List α} :
    a.1 ++ a.2 = b.1 ++ b.2 ↔ a = b ∨ Shifted a b ∨ Shifted b a := by
  constructor
  · intro h
    rcases List.append_eq_append_iff.mp h with ⟨w, hfirst, hsecond⟩ | ⟨w, hfirst, hsecond⟩
    · by_cases hw : w = []
      · subst hw
        exact Or.inl (Prod.ext (by simpa using hfirst.symm) (by simpa using hsecond))
      · exact Or.inr (Or.inl ⟨w, hw, hfirst, hsecond⟩)
    · by_cases hw : w = []
      · subst hw
        exact Or.inl (Prod.ext (by simpa using hfirst) (by simpa using hsecond.symm))
      · exact Or.inr (Or.inr ⟨w, hw, hfirst, hsecond⟩)
  · rintro (rfl | h | h)
    · rfl
    · exact h.append_eq
    · exact h.append_eq.symm

end Fields

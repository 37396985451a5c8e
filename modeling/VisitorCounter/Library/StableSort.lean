import VisitorCounter.Library.RecencyList

/-!
# Culling by a stable sort

`RecencyList.cull` sorts with a stable sort and cuts.  This file says what is
left: the ties keep their order, what was cut comes after what was kept, and a
filter that keeps an initial part of the order can be moved past a culling.

## Main Definitions

* `UpClosed r p`: whatever comes before an entry that satisfies `p` satisfies `p`

## Main Results

* `eq_of_map_eq_of_filter_eq`: a list, read off its keys and the ties under each
* `filter_insertionSort_of_pairwise`: the sort is stable, class by class
* `filter_insertionSort`: filtering commutes with the sort
* `filter_take_of_upClosed`: filtering commutes with cutting a sorted list
* `cull_filter_cull_perm`: culling early loses nothing

## Design Notes

Stability is stated through `List.filter`: a part of the list that is in order
already comes out of the sort as it went in.  Ties are such a part.
-/

namespace RecencyList

variable {α κ : Type*} {r : α → α → Prop}

/-- A list is determined by its keys and, for every key, the entries under it in
their order. -/
theorem eq_of_map_eq_of_filter_eq [DecidableEq κ] {key : α → κ} {l l' : List α}
    (hmap : l.map key = l'.map key)
    (h : ∀ k, l.filter (fun x => decide (key x = k)) = l'.filter fun x => decide (key x = k)) :
    l = l' := by
  induction l generalizing l' with
  | nil => exact (List.map_eq_nil_iff.mp hmap.symm).symm
  | cons a l ih =>
      cases l' with
      | nil => cases hmap
      | cons b l' =>
          obtain ⟨hkey, htail⟩ := List.cons.inj hmap
          obtain rfl : a = b := by
            have hhead := h (key a)
            rw [List.filter_cons_of_pos (by simp),
              List.filter_cons_of_pos (by simp [hkey])] at hhead
            exact (List.cons.inj hhead).1
          congr 1
          refine ih htail fun k => ?_
          by_cases hk : key a = k
          · simpa [hk] using h k
          · simpa [hk] using h k

/-! ### Cutting a sorted list -/

/-- Whatever comes before an entry that satisfies `p` satisfies `p`. -/
def UpClosed (r : α → α → Prop) (p : α → Bool) : Prop := ∀ a b, r a b → p b = true → p a = true

/-- Past the first entry that fails `p`, a sorted list has none that satisfies it. -/
theorem UpClosed.filter_eq_nil {p : α → Bool} (hp : UpClosed r p) {a : α} {l : List α}
    (h : (a :: l).Pairwise r) (ha : ¬ p a = true) : l.filter p = [] := by
  apply List.filter_eq_nil_iff.mpr
  intro b hb hpb
  exact ha (hp a b (List.rel_of_pairwise_cons h hb) hpb)

/-- Filtering commutes with cutting a sorted list. -/
theorem filter_take_of_upClosed {p : α → Bool} (hp : UpClosed r p) :
    ∀ (m : ℕ) {l : List α}, l.Pairwise r → (l.take m).filter p = (l.filter p).take m := by
  intro m l hl
  induction l generalizing m with
  | nil => simp
  | cons a l ih =>
      cases m with
      | zero => simp
      | succ m =>
          by_cases ha : p a = true
          · rw [List.take_succ_cons, List.filter_cons_of_pos ha, List.filter_cons_of_pos ha,
              List.take_succ_cons, ih m hl.of_cons]
          · rw [List.take_succ_cons, List.filter_cons_of_neg ha, List.filter_cons_of_neg ha,
              ih m hl.of_cons, hp.filter_eq_nil hl ha]
            simp

variable [DecidableRel r]

/-! ### Stability -/

/-- A part of the list that is in order already comes out of the sort unchanged. -/
theorem filter_insertionSort_of_pairwise {p : α → Bool} {l : List α}
    (h : (l.filter p).Pairwise r) : (l.insertionSort r).filter p = l.filter p := by
  have hsub : (l.filter p).Sublist ((l.insertionSort r).filter p) := by
    have hsorted := List.sublist_insertionSort h (List.filter_sublist (p := p) (l := l))
    simpa using hsorted.filter p
  have hlen : (l.filter p).length = ((l.insertionSort r).filter p).length :=
    ((List.perm_insertionSort r l).filter p).length_eq.symm
  exact (hsub.eq_of_length hlen).symm

/-- Inserting before a list whose entries all come later puts the entry in front. -/
theorem orderedInsert_of_forall_rel {a : α} {l : List α} (h : ∀ b ∈ l, r a b) :
    l.orderedInsert r a = a :: l := by
  cases l with
  | nil => rfl
  | cons b l => exact List.orderedInsert_cons_of_le r l (h b List.mem_cons_self)

/-- An entry that the filter drops leaves no trace of its insertion. -/
theorem filter_orderedInsert_of_neg {p : α → Bool} {a : α} (ha : p a = false) (l : List α) :
    (l.orderedInsert r a).filter p = l.filter p := by
  rw [List.orderedInsert_eq_take_drop, List.filter_append, List.filter_cons_of_neg (by simp [ha]),
    ← List.filter_append, List.takeWhile_append_dropWhile]

section Ordered

variable [IsTrans α r]

/-- Inserting into a sorted list commutes with a filter that keeps the entry. -/
theorem filter_orderedInsert_of_pos {p : α → Bool} {a : α} (ha : p a = true) :
    ∀ {l : List α}, l.Pairwise r →
      (l.orderedInsert r a).filter p = (l.filter p).orderedInsert r a := by
  intro l hl
  induction l with
  | nil => simp [ha]
  | cons b l ih =>
      have hb : ∀ c ∈ l, r b c := fun _ => List.rel_of_pairwise_cons hl
      by_cases hab : r a b
      · -- everything in the list comes after `a`, filtered or not
        have hall : ∀ c ∈ (b :: l).filter p, r a c := by
          intro c hc
          rcases List.mem_cons.mp (List.mem_of_mem_filter hc) with rfl | hc
          · exact hab
          · exact trans_of r hab (hb c hc)
        rw [orderedInsert_of_forall_rel hall, List.orderedInsert_cons_of_le r l hab,
          List.filter_cons_of_pos ha]
      · rw [List.orderedInsert_of_not_le r l hab]
        by_cases hpb : p b = true
        · rw [List.filter_cons_of_pos hpb, List.filter_cons_of_pos hpb,
            List.orderedInsert_of_not_le r _ hab, ih hl.of_cons]
        · rw [List.filter_cons_of_neg hpb, List.filter_cons_of_neg hpb, ih hl.of_cons]

variable [Std.Total r]

/-- Filtering commutes with the sort. -/
theorem filter_insertionSort (p : α → Bool) (l : List α) :
    (l.insertionSort r).filter p = (l.filter p).insertionSort r := by
  induction l with
  | nil => rfl
  | cons a l ih =>
      rw [List.insertionSort_cons]
      by_cases ha : p a = true
      · rw [filter_orderedInsert_of_pos ha (List.pairwise_insertionSort r l), ih,
          List.filter_cons_of_pos ha, List.insertionSort_cons]
      · rw [filter_orderedInsert_of_neg (by simpa using ha), ih, List.filter_cons_of_neg ha]

end Ordered

/-! ### What a culling keeps -/

/-- A culling that cuts keeps exactly `m` entries. -/
theorem length_cull_of_lt {m : ℕ} {l : List α} (h : m < l.length) : (cull r m l).length = m := by
  rw [cull, if_pos h, List.length_take, List.length_insertionSort]
  omega

/-- Of a part that is in order already, a culling that cuts keeps an initial part. -/
theorem filter_cull_prefix {p : α → Bool} {m : ℕ} {l : List α} (h : m < l.length)
    (hp : (l.filter p).Pairwise r) : (cull r m l).filter p <+: l.filter p := by
  rw [cull, if_pos h, ← filter_insertionSort_of_pairwise hp]
  exact (List.take_prefix _ _).filter p

/-- The `m` first entries of the sorted list are what a culling keeps, up to order. -/
theorem take_insertionSort_perm_cull (m : ℕ) (l : List α) :
    ((l.insertionSort r).take m).Perm (cull r m l) := by
  unfold cull
  split
  · exact List.Perm.refl _
  · rw [List.take_of_length_le (by rw [List.length_insertionSort]; omega)]
    exact List.perm_insertionSort r l

/-- A list that is in order is cut where it is. -/
theorem cull_of_pairwise {m : ℕ} {l : List α} (h : l.Pairwise r) : cull r m l = l.take m := by
  unfold cull
  split
  · rw [h.insertionSort_eq]
  · rw [List.take_of_length_le (by omega)]

section Ordered

variable [Std.Total r] [IsTrans α r]

/-- What a culling that cuts keeps is in order. -/
theorem pairwise_cull_of_lt {m : ℕ} {l : List α} (h : m < l.length) :
    (cull r m l).Pairwise r := by
  rw [cull, if_pos h]
  exact (List.pairwise_insertionSort r l).sublist (List.take_sublist _ _)

/-- What a culling drops comes after everything it keeps. -/
theorem exists_dropped_of_cull (m : ℕ) (l : List α) :
    ∃ dropped, (cull r m l ++ dropped).Perm l ∧ ∀ d ∈ dropped, ∀ k ∈ cull r m l, r k d := by
  unfold cull
  split
  · have hsorted := List.pairwise_insertionSort r l
    rw [← List.take_append_drop m (l.insertionSort r)] at hsorted
    refine ⟨(l.insertionSort r).drop m, ?_, ?_⟩
    · rw [List.take_append_drop]
      exact List.perm_insertionSort r l
    · intro d hd k hk
      exact (List.pairwise_append.mp hsorted).2.2 k hk d hd
  · exact ⟨[], by simp, by simp⟩

/-- A culling that drops one entry does not drop one that another does not precede. -/
theorem mem_cull_of_not_rel {m : ℕ} {l : List α} (hlen : l.length = m + 1) {x y : α}
    (hx : x ∈ l) (hy : y ∈ l) (h : ¬ r x y) : y ∈ cull r m l := by
  obtain ⟨dropped, hperm, hdropped⟩ := exists_dropped_of_cull (r := r) m l
  rcases List.mem_append.mp (hperm.mem_iff.mpr hy) with hkept | hy
  · exact hkept
  · -- `y` is the one entry that was dropped, so `x` was kept and comes before it
    obtain ⟨z, rfl⟩ : ∃ z, dropped = [z] := by
      rw [← List.length_eq_one_iff]
      have htotal := hperm.length_eq
      rw [List.length_append, length_cull_of_lt (by omega)] at htotal
      omega
    obtain rfl := List.mem_singleton.mp hy
    rcases List.mem_append.mp (hperm.mem_iff.mpr hx) with hkept | hx
    · exact absurd (hdropped y hy x hkept) h
    · obtain rfl := List.mem_singleton.mp hx
      exact absurd (refl_of r x) h

/-- An entry added at the end survives, unless the list was full, nothing of it
was filtered out, and all of it comes before the new entry. -/
theorem mem_cull_filter_append_singleton {p : α → Bool} {m : ℕ} {l : List α} {a : α}
    (hlen : l.length ≤ m) (ha : p a = true)
    (h : l.length = m → (∀ x ∈ l, p x = true) → ∃ x ∈ l, ¬ r x a) :
    a ∈ cull r m ((l ++ [a]).filter p) := by
  have hkept : (l ++ [a]).filter p = l.filter p ++ [a] := by
    rw [List.filter_append, List.filter_cons_of_pos ha, List.filter_nil]
  have hle := List.length_filter_le p l
  rw [hkept]
  by_cases hfits : (l.filter p ++ [a]).length ≤ m
  · rw [cull_eq_self hfits]
    exact List.mem_append_right _ List.mem_cons_self
  · rw [List.length_append, List.length_singleton] at hfits
    have hall : l.filter p = l := List.filter_eq_self.mpr
      (List.length_filter_eq_length_iff.mp (by omega))
    rw [hall] at hfits ⊢
    obtain ⟨x, hx, hnot⟩ := h (by omega) (List.filter_eq_self.mp hall)
    refine mem_cull_of_not_rel ?_ (List.mem_append_left _ hx)
      (List.mem_append_right _ List.mem_cons_self) hnot
    rw [List.length_append, List.length_singleton]
    omega

/-- Culling early loses nothing that a later, narrower filter would keep. -/
theorem cull_filter_cull_perm {p : α → Bool} (hp : UpClosed r p) (m : ℕ) (l : List α) :
    (cull r m ((cull r m l).filter p)).Perm (cull r m (l.filter p)) := by
  rcases Nat.lt_or_ge m l.length with h | h
  · have hle : ((cull r m l).filter p).length ≤ m :=
      (List.length_filter_le _ _).trans (length_cull_le m l)
    have hkept : (cull r m l).filter p = ((l.filter p).insertionSort r).take m := by
      rw [cull, if_pos h, filter_take_of_upClosed hp m (List.pairwise_insertionSort r l),
        filter_insertionSort]
    rw [cull_eq_self hle, hkept]
    exact take_insertionSort_perm_cull m (l.filter p)
  · rw [cull_eq_self h]

end Ordered

end RecencyList

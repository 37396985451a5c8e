import Mathlib.Data.List.Sort
import Mathlib.Data.List.Nodup
import Mathlib.Tactic

/-!
# Lists of keyed entries under update and culling

A list used as a small table: an entry is found by the first match of a
predicate and changed in place, new entries go to the end, and a list that has
grown too long is sorted and cut.  Nothing here depends on what the entries are.

## Main Definitions

* `updateFirst p f l`: change the first entry of `l` that satisfies `p`
* `cull r m l`: the `m` first entries in the order `r`, when there are more

## Main Results

* `updateFirst_eq_of_split`: the update, read off a split at the first match
* `map_updateFirst`: an update that keeps the key keeps the list of keys
* `subperm_cull`, `length_cull_le`, `cull_eq_self`: what culling can do
* `nodup_keys_append_singleton`: a key stays unique when its old entries go
-/

namespace RecencyList

variable {α κ : Type*}

/-- Change the first entry that satisfies `p`, if there is one. -/
def updateFirst (p : α → Bool) (f : α → α) (l : List α) : List α := l.modify (l.findIdx p) f

/-- The update, read off a split of the list at its first match. -/
theorem updateFirst_eq_of_split {p : α → Bool} (f : α → α) {front back : List α} {a : α}
    (hfront : ∀ x ∈ front, p x = false) (ha : p a = true) :
    updateFirst p f (front ++ a :: back) = front ++ f a :: back := by
  have hidx : (front ++ a :: back).findIdx p = front.length := by
    rw [List.findIdx_append, List.findIdx_eq_length_of_false hfront]
    simp [List.findIdx_cons, ha]
  rw [updateFirst, hidx, List.modify_eq_take_cons_drop (by simp)]
  simp

/-- Without a match nothing changes. -/
theorem updateFirst_eq_self {p : α → Bool} (f : α → α) {l : List α}
    (h : ∀ x ∈ l, p x = false) : updateFirst p f l = l := by
  rw [updateFirst, List.findIdx_eq_length_of_false h, List.modify_eq_self]
  exact le_rfl

/-- A list with a match splits at the first one. -/
theorem exists_split_of_find?_eq_some {p : α → Bool} {l : List α} {a : α}
    (h : l.find? p = some a) :
    ∃ front back, l = front ++ a :: back ∧ (∀ x ∈ front, p x = false) ∧ p a = true := by
  obtain ⟨ha, front, back, hsplit, hfront⟩ := List.find?_eq_some_iff_append.mp h
  exact ⟨front, back, hsplit, fun x hx => by simpa using hfront x hx, ha⟩

/-- An update that keeps the key of the entry it changes keeps the list of keys. -/
theorem map_updateFirst_of_find? {key : α → κ} {p : α → Bool} {f : α → α} {l : List α}
    (hkey : ∀ a, l.find? p = some a → key (f a) = key a) :
    (updateFirst p f l).map key = l.map key := by
  cases hfind : l.find? p with
  | none =>
      rw [updateFirst_eq_self f (fun x hx => by simpa using List.find?_eq_none.mp hfind x hx)]
  | some a =>
      have hsame := hkey a hfind
      obtain ⟨front, back, rfl, hfront, ha⟩ := exists_split_of_find?_eq_some hfind
      simp [updateFirst_eq_of_split f hfront ha, hsame]

/-- An update that keeps the key of every entry keeps the list of keys. -/
theorem map_updateFirst {key : α → κ} {p : α → Bool} {f : α → α}
    (hkey : ∀ a, key (f a) = key a) (l : List α) :
    (updateFirst p f l).map key = l.map key :=
  map_updateFirst_of_find? fun a _ => hkey a

/-- Entries of an updated list are old entries or the changed one. -/
theorem mem_updateFirst {p : α → Bool} {f : α → α} {l : List α} {x : α}
    (h : x ∈ updateFirst p f l) : x ∈ l ∨ ∃ a, l.find? p = some a ∧ x = f a := by
  cases hfind : l.find? p with
  | none =>
      rw [updateFirst_eq_self f (fun x hx => by simpa using List.find?_eq_none.mp hfind x hx)] at h
      exact Or.inl h
  | some a =>
      obtain ⟨front, back, rfl, hfront, ha⟩ := exists_split_of_find?_eq_some hfind
      rw [updateFirst_eq_of_split f hfront ha] at h
      rcases List.mem_append.mp h with hx | hx
      · exact Or.inl (List.mem_append_left _ hx)
      · rcases List.mem_cons.mp hx with rfl | hx
        · exact Or.inr ⟨a, rfl, rfl⟩
        · exact Or.inl (List.mem_append_right _ (List.mem_cons_of_mem _ hx))

/-- Every entry survives an update, as it was or changed. -/
theorem mem_updateFirst_of_mem {p : α → Bool} {f : α → α} {l : List α} {x : α}
    (h : x ∈ l) : x ∈ updateFirst p f l ∨ f x ∈ updateFirst p f l ∧ l.find? p = some x := by
  cases hfind : l.find? p with
  | none =>
      rw [updateFirst_eq_self f (fun x hx => by simpa using List.find?_eq_none.mp hfind x hx)]
      exact Or.inl h
  | some a =>
      obtain ⟨front, back, rfl, hfront, ha⟩ := exists_split_of_find?_eq_some hfind
      rw [updateFirst_eq_of_split f hfront ha]
      rcases List.mem_append.mp h with hx | hx
      · exact Or.inl (List.mem_append_left _ hx)
      · rcases List.mem_cons.mp hx with rfl | hx
        · exact Or.inr ⟨by simp, rfl⟩
        · exact Or.inl (List.mem_append_right _ (List.mem_cons_of_mem _ hx))

/-- The changed entry is in the list. -/
theorem apply_mem_updateFirst {p : α → Bool} {f : α → α} {l : List α} {a : α}
    (h : l.find? p = some a) : f a ∈ updateFirst p f l := by
  obtain ⟨front, back, rfl, hfront, ha⟩ := exists_split_of_find?_eq_some h
  simp [updateFirst_eq_of_split f hfront ha]

/-! ### Culling -/

variable {r : α → α → Prop} [DecidableRel r]

/-- Keep the `m` first entries in the order `r` when the list is longer than `m`. -/
def cull (r : α → α → Prop) [DecidableRel r] (m : ℕ) (l : List α) : List α :=
  if m < l.length then (l.insertionSort r).take m else l

theorem cull_eq_self {m : ℕ} {l : List α} (h : l.length ≤ m) : cull r m l = l :=
  if_neg (by omega)

theorem length_cull_le (m : ℕ) (l : List α) : (cull r m l).length ≤ m := by
  unfold cull
  split
  · exact List.length_take_le _ _
  · omega

/-- Culling keeps entries of the list, each at most as often as it occurred. -/
theorem subperm_cull (m : ℕ) (l : List α) : (cull r m l).Subperm l := by
  unfold cull
  split
  · exact (List.take_sublist _ _).subperm.trans (List.perm_insertionSort r l).subperm
  · exact List.Subperm.refl l

theorem mem_of_mem_cull {m : ℕ} {l : List α} {x : α} (h : x ∈ cull r m l) : x ∈ l :=
  (subperm_cull m l).subset h

theorem length_cull_le_length (m : ℕ) (l : List α) : (cull r m l).length ≤ l.length :=
  (subperm_cull m l).length_le

/-- Keys that were pairwise distinct stay so under culling. -/
theorem nodup_map_cull {key : α → κ} {m : ℕ} {l : List α} (h : (l.map key).Nodup) :
    ((cull r m l).map key).Nodup := by
  obtain ⟨kept, hperm, hsub⟩ := subperm_cull (r := r) m l
  exact (hperm.map key).nodup_iff.mp ((hsub.map key).nodup h)

/-! ### Unique keys -/

/-- Where keys are unique, looking a key up finds its entry. -/
theorem find?_eq_some_of_nodup {key : α → κ} {p : α → Bool} {l : List α} {a : α}
    (hl : (l.map key).Nodup) (ha : a ∈ l) (hpa : p a = true)
    (hp : ∀ x ∈ l, p x = true → key x = key a) : l.find? p = some a := by
  obtain ⟨b, hfind⟩ : ∃ b, l.find? p = some b := by
    rw [← Option.isSome_iff_exists, List.find?_isSome]
    exact ⟨a, ha, hpa⟩
  have hb := List.mem_of_find?_eq_some hfind
  rw [hfind, List.inj_on_of_nodup_map hl hb ha (hp b hb (List.find?_some hfind))]

/-- Adding an entry at the end and then dropping entries keeps keys unique when
every old entry under the new key is dropped. -/
theorem nodup_keys_append_singleton {key : α → κ} {keep : α → Bool} {l : List α} {a : α}
    (hl : (l.map key).Nodup) (hdrop : ∀ x ∈ l, key x = key a → keep x = false) :
    (((l ++ [a]).filter keep).map key).Nodup := by
  have hkept : ((l.filter keep).map key).Nodup := (List.filter_sublist.map key).nodup hl
  rw [List.filter_append, List.map_append, List.nodup_append]
  refine ⟨hkept, ?_, ?_⟩
  · cases hkeep : keep a <;> simp [hkeep]
  · rintro k hk k' hk' rfl
    obtain ⟨x, hx, rfl⟩ := List.mem_map.mp hk
    obtain ⟨y, hy, hxy⟩ := List.mem_map.mp hk'
    obtain ⟨hxl, hxkeep⟩ := List.mem_filter.mp hx
    obtain rfl : y = a := by simpa using List.mem_of_mem_filter hy
    simp [hdrop x hxl hxy.symm] at hxkeep

end RecencyList

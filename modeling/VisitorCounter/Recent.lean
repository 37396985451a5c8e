import VisitorCounter.Visitor
import VisitorCounter.Library.RecencyList

/-!
# The recent visitors list

A visit is recorded in three steps: look the visitor up among the recent ones,
refresh or add its entry, and prune the list.  The lookup and the pruning share
one closure, `now.duration_since(last_seen).expect(..) < RECENT_CUTOFF`, which
panics on an entry that is later than `now`.

## Main Definitions

* `findRecentMut`, `pruneVisitors`: the two helpers of `Store`
* `recordVisit`: the body of the update branch of `maybe_increment_visitors`
* `Recent`: what the shared closure decides

## Main Results

* `recordVisit_cases`: what a recorded visit did, refresh or push
* `pruneVisitors_eq_ok_iff`: pruning succeeds exactly when no entry is later
  than `now`, filters the list and culls it
-/

namespace VisitorCounter

open RecencyList

/-- `RECENT_CUTOFF`: how long a visitor is kept in the recent visitors list (2 hours). -/
def recentCutoff : ℕ := Duration.fromSecs 7200

/-- The closure that `find_recent_mut` and `prune_visitors` share. -/
def seenRecently (now : ℤ) (v : Visitor) : Except Panic Bool := do
  let elapsed ← expect (SystemTime.durationSince now v.lastSeen) "now is after last_seen"
  return decide (elapsed < recentCutoff)

/-- `Store::find_recent_mut`: the place of the first entry with the visitor's
tag, when that entry was seen recently.  The place stands for the `&mut`. -/
def findRecentMut (countEntry : CountEntry) (visitor : Visitor) (now : ℤ) :
    Except Panic (Option ℕ) :=
  match countEntry.recentVisitors.find? (fun v => v.tag == visitor.tag) with
  | none => return none
  | some found => do
      if ← seenRecently now found then
        return some (countEntry.recentVisitors.findIdx fun v => v.tag == visitor.tag)
      else
        return none

/-- `Store::prune_visitors`: drop the visitors that were not seen recently, and
the oldest ones when the list is still too long. -/
def pruneVisitors (countEntry : CountEntry) (now : ℤ) (maxRecent : ℕ) :
    Except Panic CountEntry := do
  let recentVisitors ← countEntry.recentVisitors.filterM (seenRecently now)
  return { countEntry with
    recentVisitors := cull (fun left right => right.lastSeen ≤ left.lastSeen) maxRecent
      recentVisitors }

/-- The update branch of `maybe_increment_visitors` up to the pruning: refresh
the visitor that was seen recently, otherwise add it and count it.  The count is
a `u64` of the release profile, where `+= 1` wraps. -/
def recordVisit (countEntry : CountEntry) (visitor : Visitor) (now : ℤ) :
    Except Panic CountEntry := do
  match ← findRecentMut countEntry visitor now with
  | some i => return { countEntry with
      recentVisitors := countEntry.recentVisitors.modify i fun v => { v with lastSeen := now } }
  | none => return {
      count := countEntry.count + 1
      recentVisitors := countEntry.recentVisitors ++ [visitor] }

/-! ### The shared closure -/

/-- `t` is within `RECENT_CUTOFF` of `now`. -/
def Recent (now t : ℤ) : Prop := now - t < 7_200_000_000_000

instance (now t : ℤ) : Decidable (Recent now t) := inferInstanceAs (Decidable (_ < _))

theorem seenRecently_of_le {now : ℤ} {v : Visitor} (h : v.lastSeen ≤ now) :
    seenRecently now v = .ok (decide (Recent now v.lastSeen)) := by
  obtain ⟨d, hd⟩ : ∃ d : ℕ, (d : ℤ) = now - v.lastSeen := ⟨(now - v.lastSeen).toNat, by omega⟩
  have hsince : SystemTime.durationSince now v.lastSeen = some d :=
    SystemTime.durationSince_eq_some_iff.mpr ⟨h, hd⟩
  have hiff : d < recentCutoff ↔ Recent now v.lastSeen := by
    simp only [recentCutoff, Duration.fromSecs, Recent]
    omega
  simp [seenRecently, hsince, hiff, bind, Except.bind, pure, Except.pure]

theorem seenRecently_of_lt {now : ℤ} {v : Visitor} (h : now < v.lastSeen) :
    seenRecently now v = .error ⟨"now is after last_seen"⟩ := by
  simp [seenRecently, SystemTime.durationSince_eq_none_iff.mpr h, bind, Except.bind]

theorem seenRecently_eq_ok_iff {now : ℤ} {v : Visitor} {b : Bool} :
    seenRecently now v = .ok b ↔ v.lastSeen ≤ now ∧ b = decide (Recent now v.lastSeen) := by
  rcases le_or_gt v.lastSeen now with h | h
  · rw [seenRecently_of_le h]
    simp [h, eq_comm]
  · rw [seenRecently_of_lt h]
    simp only [reduceCtorEq, false_iff]
    omega

/-! ### Pruning -/

/-- The entries a pruning keeps before it culls. -/
abbrev recentOnly (now : ℤ) (l : List Visitor) : List Visitor :=
  l.filter fun v => decide (Recent now v.lastSeen)

private theorem filterAuxM_seenRecently_eq_ok_iff {now : ℤ} :
    ∀ {l acc kept : List Visitor}, List.filterAuxM (seenRecently now) l acc = .ok kept ↔
      (∀ v ∈ l, v.lastSeen ≤ now) ∧ kept = (recentOnly now l).reverse ++ acc := by
  intro l
  induction l with
  | nil => intro acc kept; simp [List.filterAuxM, pure, Except.pure, eq_comm]
  | cons v l ih =>
      intro acc kept
      rw [List.filterAuxM]
      simp only [bind_eq_ok_iff, seenRecently_eq_ok_iff, ih, List.forall_mem_cons]
      constructor
      · rintro ⟨b, ⟨hv, rfl⟩, hl, rfl⟩
        refine ⟨⟨hv, hl⟩, ?_⟩
        by_cases hrecent : Recent now v.lastSeen <;> simp [hrecent]
      · rintro ⟨⟨hv, hl⟩, rfl⟩
        refine ⟨_, ⟨hv, rfl⟩, hl, ?_⟩
        by_cases hrecent : Recent now v.lastSeen <;> simp [hrecent]

/-- The filter passes exactly when no entry is later than `now`. -/
theorem filterM_seenRecently_eq_ok_iff {now : ℤ} {l kept : List Visitor} :
    l.filterM (seenRecently now) = .ok kept ↔
      (∀ v ∈ l, v.lastSeen ≤ now) ∧ kept = recentOnly now l := by
  rw [List.filterM, bind_eq_ok_iff]
  simp only [filterAuxM_seenRecently_eq_ok_iff, pure, Except.pure, Except.ok.injEq]
  constructor
  · rintro ⟨rev, ⟨hl, rfl⟩, rfl⟩
    exact ⟨hl, by simp⟩
  · rintro ⟨hl, rfl⟩
    exact ⟨_, ⟨hl, rfl⟩, by simp⟩

/-- The order of the descending sort. -/
abbrev MoreRecent (left right : Visitor) : Prop := right.lastSeen ≤ left.lastSeen

theorem pruneVisitors_eq_ok_iff {countEntry pruned : CountEntry} {now : ℤ} {maxRecent : ℕ} :
    pruneVisitors countEntry now maxRecent = .ok pruned ↔
      (∀ v ∈ countEntry.recentVisitors, v.lastSeen ≤ now) ∧
        pruned.count = countEntry.count ∧
        pruned.recentVisitors =
          cull MoreRecent maxRecent (recentOnly now countEntry.recentVisitors) := by
  unfold pruneVisitors
  simp only [bind_eq_ok_iff, filterM_seenRecently_eq_ok_iff, pure, Except.pure, Except.ok.injEq]
  constructor
  · rintro ⟨kept, ⟨hl, rfl⟩, rfl⟩
    exact ⟨hl, rfl, rfl⟩
  · rintro ⟨hl, hcount, hrecent⟩
    refine ⟨_, ⟨hl, rfl⟩, ?_⟩
    cases pruned
    simp_all

/-! ### Recording a visit -/

/-- The entry is found under the visitor's tag. -/
abbrev isTag (tag : UInt32) : Visitor → Bool := fun v => v.tag == tag

/-- What a refresh does to the list. -/
abbrev refreshed (tag : UInt32) (now : ℤ) : List Visitor → List Visitor :=
  updateFirst (isTag tag) fun v => { v with lastSeen := now }

/-- A refresh keeps the tags. -/
theorem map_tag_refreshed (tag : UInt32) (now : ℤ) (l : List Visitor) :
    (refreshed tag now l).map Visitor.tag = l.map Visitor.tag :=
  @map_updateFirst _ _ Visitor.tag (isTag tag) (fun v => { v with lastSeen := now })
    (fun _ => rfl) l

/-- A recent first entry under the tag is found. -/
theorem findRecentMut_of_recent {countEntry : CountEntry} {visitor found : Visitor} {now : ℤ}
    (hfind : countEntry.recentVisitors.find? (isTag visitor.tag) = some found)
    (hle : found.lastSeen ≤ now) (hrecent : Recent now found.lastSeen) :
    findRecentMut countEntry visitor now =
      .ok (some (countEntry.recentVisitors.findIdx (isTag visitor.tag))) := by
  simp only [findRecentMut, hfind, seenRecently_of_le hle, hrecent, decide_true, bind,
    Except.bind, if_true, pure, Except.pure]

/-- What the lookup finds is recent, and it is the first entry under the tag. -/
theorem exists_recent_of_findRecentMut {countEntry : CountEntry} {visitor : Visitor} {now : ℤ}
    {place : ℕ} (h : findRecentMut countEntry visitor now = .ok (some place)) :
    ∃ found, countEntry.recentVisitors.find? (isTag visitor.tag) = some found ∧
      found.lastSeen ≤ now ∧ Recent now found.lastSeen := by
  unfold findRecentMut at h
  cases hfind : countEntry.recentVisitors.find? (isTag visitor.tag) with
  | none =>
      rw [hfind] at h
      cases h
  | some found =>
      rw [hfind] at h
      obtain ⟨b, hb, hplace⟩ := bind_eq_ok_iff.mp h
      obtain ⟨hle, rfl⟩ := seenRecently_eq_ok_iff.mp hb
      by_cases hrecent : Recent now found.lastSeen
      · exact ⟨found, rfl, hle, hrecent⟩
      · simp [hrecent, pure, Except.pure] at hplace

/-- **What a recorded visit did.**  Either the first entry under the tag was
recent and has been moved to `now`, or there was none (or a stale one, which is
still in the list) and the visitor has been added and counted. -/
theorem recordVisit_cases {countEntry recorded : CountEntry} {visitor : Visitor} {now : ℤ}
    (h : recordVisit countEntry visitor now = .ok recorded) :
    (∃ found, countEntry.recentVisitors.find? (isTag visitor.tag) = some found ∧
        found.lastSeen ≤ now ∧ Recent now found.lastSeen ∧
        recorded.count = countEntry.count ∧
        recorded.recentVisitors = refreshed visitor.tag now countEntry.recentVisitors) ∨
      ((∀ found, countEntry.recentVisitors.find? (isTag visitor.tag) = some found →
          found.lastSeen ≤ now ∧ ¬ Recent now found.lastSeen) ∧
        recorded.count = countEntry.count + 1 ∧
        recorded.recentVisitors = countEntry.recentVisitors ++ [visitor]) := by
  unfold recordVisit findRecentMut at h
  cases hfind : countEntry.recentVisitors.find? (isTag visitor.tag) with
  | none =>
      rw [hfind] at h
      right
      simp only [pure, Except.pure, bind, Except.bind, Except.ok.injEq] at h
      subst h
      simp
  | some found =>
      rw [hfind] at h
      obtain ⟨place, hplace, h⟩ := bind_eq_ok_iff.mp h
      obtain ⟨b, hb, hplace⟩ := bind_eq_ok_iff.mp hplace
      obtain ⟨hle, rfl⟩ := seenRecently_eq_ok_iff.mp hb
      by_cases hrecent : Recent now found.lastSeen
      · left
        simp only [hrecent, decide_true, if_true, pure, Except.pure, Except.ok.injEq] at hplace
        subst hplace
        simp only [pure, Except.pure, Except.ok.injEq] at h
        subst h
        exact ⟨found, rfl, hle, hrecent, rfl, rfl⟩
      · right
        simp only [hrecent, decide_false, Bool.false_eq_true, if_false, pure, Except.pure,
          Except.ok.injEq] at hplace
        subst hplace
        simp only [pure, Except.pure, Except.ok.injEq] at h
        subst h
        refine ⟨?_, rfl, rfl⟩
        rintro other hother
        obtain rfl : found = other := Option.some.inj hother
        exact ⟨hle, hrecent⟩

/-- A recent entry under the tag is refreshed, and the count stays. -/
theorem recordVisit_of_recent {countEntry : CountEntry} {visitor found : Visitor} {now : ℤ}
    (hfind : countEntry.recentVisitors.find? (isTag visitor.tag) = some found)
    (hle : found.lastSeen ≤ now) (hrecent : Recent now found.lastSeen) :
    recordVisit countEntry visitor now = .ok { countEntry with
      recentVisitors := refreshed visitor.tag now countEntry.recentVisitors } := by
  simp only [recordVisit, findRecentMut_of_recent hfind hle hrecent, bind, Except.bind, pure,
    Except.pure]
  rfl

/-- Without a recent first entry under the tag the visitor is added and counted. -/
theorem recordVisit_of_not_recent {countEntry : CountEntry} {visitor : Visitor} {now : ℤ}
    (h : ∀ found, countEntry.recentVisitors.find? (isTag visitor.tag) = some found →
      found.lastSeen ≤ now ∧ ¬ Recent now found.lastSeen) :
    recordVisit countEntry visitor now = .ok {
      count := countEntry.count + 1
      recentVisitors := countEntry.recentVisitors ++ [visitor] } := by
  cases hfind : countEntry.recentVisitors.find? (isTag visitor.tag) with
  | none => simp [recordVisit, findRecentMut, hfind, bind, Except.bind, pure, Except.pure]
  | some found =>
      obtain ⟨hle, hstale⟩ := h found hfind
      simp [recordVisit, findRecentMut, hfind, seenRecently_of_le hle, hstale, bind, Except.bind,
        pure, Except.pure]

end VisitorCounter

import VisitorCounter.Recent
import VisitorCounter.Library.StableSort

/-!
# What pruning keeps

`pruneVisitors` filters by age, and sorts and cuts only when too many entries
are left.  The descending sort is stable, and the entries that stay recent at a
later time are the ones that come first in it, so that pruning early never
drops an entry that pruning later would have kept.

## Main Definitions

* `MostRecent max recent kept`: `kept` are `max` most recent ones of `recent`

## Main Results

* `mostRecent_cull`: a culling that cuts keeps the most recent entries
* `MostRecent.unique`: there is only one such list
* `pruneVisitors_mostRecent`: what a pruning keeps, and that pruning twice is
  pruning once, up to order
-/

namespace VisitorCounter

open RecencyList

instance : Std.Total MoreRecent := ⟨fun left right => le_total right.lastSeen left.lastSeen⟩

instance : IsTrans Visitor MoreRecent := ⟨fun _ _ _ hab hbc => le_trans hbc hab⟩

/-- The entries of one time, in the order of the list. -/
abbrev seenAt (time : ℤ) (l : List Visitor) : List Visitor :=
  l.filter fun v => decide (v.lastSeen = time)

/-- `kept` are `max` most recent entries of `recent`, the most recent first and
ties in the order they had. -/
structure MostRecent (max : ℕ) (recent kept : List Visitor) : Prop where
  /-- As many as there is room for. -/
  length_eq : kept.length = max
  /-- The times do not increase. -/
  descending : kept.Pairwise MoreRecent
  /-- Of every time the first ones are kept, in their order. -/
  ties : ∀ time, seenAt time kept <+: seenAt time recent
  /-- What is not kept is nowhere more recent than what is. -/
  dropped : ∃ dropped, (kept ++ dropped).Perm recent ∧
    ∀ d ∈ dropped, ∀ k ∈ kept, d.lastSeen ≤ k.lastSeen

/-- Entries of one time are in order as they are. -/
theorem pairwise_seenAt (time : ℤ) (l : List Visitor) : (seenAt time l).Pairwise MoreRecent := by
  apply List.pairwise_of_forall_mem_list
  intro left hleft right hright
  have hl : left.lastSeen = time := by simpa using (List.mem_filter.mp hleft).2
  have hr : right.lastSeen = time := by simpa using (List.mem_filter.mp hright).2
  exact (hr.trans hl.symm).le

theorem length_seenAt (time : ℤ) (l : List Visitor) :
    (seenAt time l).length = (l.map Visitor.lastSeen).count time := by
  rw [List.count, List.countP_map, List.countP_eq_length_filter]
  rfl

/-- A culling that cuts keeps the most recent entries. -/
theorem mostRecent_cull {max : ℕ} {recent : List Visitor} (h : max < recent.length) :
    MostRecent max recent (cull MoreRecent max recent) where
  length_eq := length_cull_of_lt h
  descending := pairwise_cull_of_lt h
  ties time := filter_cull_prefix h (pairwise_seenAt time recent)
  dropped := exists_dropped_of_cull max recent

/-- The times of the most recent entries are the first ones of all times in order. -/
theorem MostRecent.map_lastSeen {max : ℕ} {recent kept : List Visitor}
    (h : MostRecent max recent kept) : kept.map Visitor.lastSeen =
      ((recent.map Visitor.lastSeen).insertionSort (· ≥ ·)).take max := by
  obtain ⟨dropped, hperm, hdropped⟩ := h.dropped
  have hkept : (kept.map Visitor.lastSeen).Pairwise (· ≥ ·) := List.pairwise_map.mpr h.descending
  have hsorted : (kept.map Visitor.lastSeen ++
      (dropped.map Visitor.lastSeen).insertionSort (· ≥ ·)).Pairwise (· ≥ ·) := by
    refine List.pairwise_append.mpr ⟨hkept, List.pairwise_insertionSort _ _, ?_⟩
    intro s hs t ht
    obtain ⟨k, hk, rfl⟩ := List.mem_map.mp hs
    obtain ⟨d, hd, rfl⟩ := List.mem_map.mp ((List.mem_insertionSort _).mp ht)
    exact hdropped d hd k hk
  have hall : (kept.map Visitor.lastSeen ++
      (dropped.map Visitor.lastSeen).insertionSort (· ≥ ·)).Perm
        ((recent.map Visitor.lastSeen).insertionSort (· ≥ ·)) := by
    refine List.Perm.trans ?_ (List.perm_insertionSort _ _).symm
    refine ((List.perm_insertionSort _ _).append_left _).trans ?_
    rw [← List.map_append]
    exact hperm.map Visitor.lastSeen
  have heq := hall.eq_of_pairwise' hsorted (List.pairwise_insertionSort _ _)
  rw [← heq, ← h.length_eq, ← List.length_map Visitor.lastSeen, List.take_left]

/-- Only one list is made of the most recent entries. -/
theorem MostRecent.unique {max : ℕ} {recent kept kept' : List Visitor}
    (h : MostRecent max recent kept) (h' : MostRecent max recent kept') : kept = kept' := by
  have hmap : kept.map Visitor.lastSeen = kept'.map Visitor.lastSeen :=
    h.map_lastSeen.trans h'.map_lastSeen.symm
  refine eq_of_map_eq_of_filter_eq hmap fun time => ?_
  -- both are initial parts of one list, and equally long
  have hlen : (seenAt time kept).length = (seenAt time kept').length := by
    rw [length_seenAt, length_seenAt, hmap]
  exact (List.prefix_of_prefix_length_le (h.ties time) (h'.ties time) hlen.le).eq_of_length hlen

/-- What is recent later is recent now. -/
theorem Recent.mono {now later t : ℤ} (h : now ≤ later) (ht : Recent later t) : Recent now t := by
  unfold Recent at *
  omega

/-- What comes before a recent entry is recent. -/
theorem upClosed_recent (now : ℤ) :
    UpClosed MoreRecent fun v => decide (Recent now v.lastSeen) := by
  intro left right hmore hright
  rw [decide_eq_true_eq] at hright ⊢
  exact lt_of_le_of_lt (sub_le_sub_left hmore now) hright

/-- The entries recent at a later time, read off those recent now. -/
theorem recentOnly_recentOnly {now later : ℤ} (h : now ≤ later) (l : List Visitor) :
    recentOnly later (recentOnly now l) = recentOnly later l := by
  rw [recentOnly, List.filter_filter]
  apply List.filter_congr
  intro v _
  simpa using Recent.mono h

/-- A pruning and a later one keep what the later one keeps alone, up to order. -/
theorem cull_recentOnly_perm {now later : ℤ} (h : now ≤ later) (max : ℕ) (l : List Visitor) :
    (cull MoreRecent max (recentOnly later (cull MoreRecent max (recentOnly now l)))).Perm
      (cull MoreRecent max (recentOnly later l)) := by
  rw [← recentOnly_recentOnly h l]
  exact cull_filter_cull_perm (upClosed_recent later) max (recentOnly now l)

/-- Pruning returns unless an entry is later than `now`. -/
theorem pruneVisitors_of_le {countEntry : CountEntry} {now : ℤ} (maxRecent : ℕ)
    (h : ∀ v ∈ countEntry.recentVisitors, v.lastSeen ≤ now) :
    pruneVisitors countEntry now maxRecent = .ok ⟨countEntry.count,
      cull MoreRecent maxRecent (recentOnly now countEntry.recentVisitors)⟩ :=
  pruneVisitors_eq_ok_iff.mpr ⟨h, rfl, rfl⟩

/-- A pruning keeps the recent entries, or the most recent of them when they are
too many, and one that follows it keeps what it would have kept alone. -/
theorem pruneVisitors_mostRecent (countEntry : CountEntry) (now : ℤ) (maxRecent : ℕ)
    (h : ∀ v ∈ countEntry.recentVisitors, v.lastSeen ≤ now) :
    ∃ pruned, pruneVisitors countEntry now maxRecent = .ok pruned ∧
      pruned.count = countEntry.count ∧
      ((recentOnly now countEntry.recentVisitors).length ≤ maxRecent →
        pruned.recentVisitors = recentOnly now countEntry.recentVisitors) ∧
      (maxRecent < (recentOnly now countEntry.recentVisitors).length →
        MostRecent maxRecent (recentOnly now countEntry.recentVisitors) pruned.recentVisitors) ∧
      ∀ later, now ≤ later → ∃ once twice,
        pruneVisitors countEntry later maxRecent = .ok once ∧
        pruneVisitors pruned later maxRecent = .ok twice ∧
        twice.count = once.count ∧ twice.recentVisitors.Perm once.recentVisitors := by
  refine ⟨_, pruneVisitors_of_le maxRecent h, rfl, cull_eq_self, mostRecent_cull, ?_⟩
  intro later hlater
  have honce : ∀ v ∈ countEntry.recentVisitors, v.lastSeen ≤ later :=
    fun v hv => (h v hv).trans hlater
  have htwice : ∀ v ∈ cull MoreRecent maxRecent (recentOnly now countEntry.recentVisitors),
      v.lastSeen ≤ later := fun v hv => honce v (List.mem_of_mem_filter (mem_of_mem_cull hv))
  exact ⟨_, _, pruneVisitors_of_le maxRecent honce, pruneVisitors_of_le maxRecent htwice, rfl,
    cull_recentOnly_perm hlater maxRecent countEntry.recentVisitors⟩

/-- Two of three visits in one second are kept, in the order of the list, and the
one two hours earlier is not. -/
theorem pruneVisitors_mostRecent_ties :
    (∀ v ∈ [(⟨1, 0⟩ : Visitor), ⟨2, 7_200_000_000_000⟩, ⟨3, 7_200_000_000_000⟩,
      ⟨4, 7_200_000_000_000⟩], v.lastSeen ≤ 7_200_000_000_000) ∧
    ∃ pruned, pruneVisitors ⟨9, [⟨1, 0⟩, ⟨2, 7_200_000_000_000⟩, ⟨3, 7_200_000_000_000⟩,
        ⟨4, 7_200_000_000_000⟩]⟩ 7_200_000_000_000 2 = .ok pruned ∧ pruned.count = 9 ∧
      pruned.recentVisitors = [⟨2, 7_200_000_000_000⟩, ⟨3, 7_200_000_000_000⟩] := by
  refine ⟨by decide, ?_⟩
  obtain ⟨pruned, hpruned, hcount, -, hmost, -⟩ := pruneVisitors_mostRecent
    ⟨9, [⟨1, 0⟩, ⟨2, 7_200_000_000_000⟩, ⟨3, 7_200_000_000_000⟩, ⟨4, 7_200_000_000_000⟩]⟩
    7_200_000_000_000 2 (by decide)
  refine ⟨pruned, hpruned, hcount, ?_⟩
  exact (hmost (by decide)).unique (mostRecent_cull (by decide))

end VisitorCounter

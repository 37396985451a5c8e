import VisitorCounter.Invariant

/-!
# Counting distinct visitors

As long as all visits fall into one window, the counter counts distinct tags,
and no visitor twice.  A put is checked against the count alone, so it can
replace a version it was not prepared from.  That does no harm to the tags,
because versions with one count have one set of tags: all of them descend from
the put that brought the count there.

## Main Definitions

* `SharedWindow`: all visits fall into one window and their tags fit one list
* `Tally`: the counts and tags of the versions of a history

## Main Results

* `Tally.refresh`, `Tally.push`: what the two kinds of update keep
* `Lineage.tally`: every history of a shared window is tallied
-/

namespace VisitorCounter

open Runs RecencyList

variable {ι : Type} {sys : System ι} {tags : Finset UInt32}

/-- The visits of all invocations are recent to each of them, and their tags are
among `tags`, which fit one list. -/
structure SharedWindow (sys : System ι) (tags : Finset UInt32) : Prop where
  seen_le : ∀ i, (sys.calls i).visitor.lastSeen ≤ (sys.calls i).now
  within : ∀ i j, Recent (sys.calls i).now (floorToSeconds (sys.calls j).visitor.lastSeen)
  tag_mem : ∀ i, (sys.calls i).visitor.tag ∈ tags
  card_le : tags.card ≤ maxRecentVisitors

/-- What was seen at the time of one invocation is recent to every other. -/
theorem SharedWindow.recent_floor_now (h : SharedWindow sys tags) (i j : ι) :
    Recent (sys.calls i).now (floorToSeconds (sys.calls j).now) := by
  have hwithin := h.within i j
  have hmono := floorToSeconds_mono (h.seen_le j)
  unfold Recent at hwithin ⊢
  omega

theorem SharedWindow.recent_lastSeen (h : SharedWindow sys tags) (i : ι) :
    Recent (sys.calls i).now (sys.calls i).visitor.lastSeen := by
  have hwithin := h.within i i
  have hfloor := floorToSeconds_le (sys.calls i).visitor.lastSeen
  unfold Recent at hwithin ⊢
  omega

/-- The versions of one item, tag by tag. -/
structure Tally (sys : System ι) (versions : List (Version ι)) : Prop where
  nodup : ∀ item ∈ sys.items versions, (item.recent.map StoredVisitor.tag).Nodup
  count : ∀ item ∈ sys.items versions, item.count.toNat = item.recent.length
  fresh : ∀ item ∈ sys.items versions, ∀ e ∈ item.recent, ∀ i, Recent (sys.calls i).now e.time
  /-- Every tag on any list is that of a visitor whose put was applied. -/
  known : ∀ item ∈ sys.items versions, ∀ tag ∈ item.recent.map StoredVisitor.tag,
    ∃ v ∈ versions, (sys.visitorOf v).tag = tag
  /-- The current list has all of them. -/
  complete : ∀ v ∈ versions, (sys.visitorOf v).tag ∈ sys.storedTags versions
  /-- The ancestry of versions: one count, one set of tags. -/
  ancestry : ∀ a ∈ sys.items versions, ∀ b ∈ sys.items versions, a.count = b.count →
    a.recent.map StoredVisitor.tag ⊆ b.recent.map StoredVisitor.tag
  counted_nodup : ((versions.filter (·.request.counts)).map fun v => (sys.visitorOf v).tag).Nodup

/-- A list of distinct tags among those of a shared window fits. -/
theorem SharedWindow.length_le (h : SharedWindow sys tags) {l : List UInt32} (hnodup : l.Nodup)
    (hmem : ∀ tag ∈ l, ∃ i, (sys.calls i).visitor.tag = tag) : l.length ≤ maxRecentVisitors := by
  rw [← List.toFinset_card_of_nodup hnodup]
  refine (Finset.card_le_card fun tag htag => ?_).trans h.card_le
  obtain ⟨i, rfl⟩ := hmem tag (List.mem_toFinset.mp htag)
  exact h.tag_mem i

namespace Tally

variable {versions : List (Version ι)} {v : Version ι} {item : StoredItem}

theorem nil (hnone : sys.initial = none) : Tally sys [] := by
  constructor <;> simp [hnone, System.storedTags]

/-- Every entry of a version is recent to every invocation, in memory as well. -/
theorem recent_of_mem (h : Tally sys versions) (hitem : item ∈ sys.items versions) (i : ι) :
    ∀ x ∈ item.recent.map Visitor.ofStored, Recent (sys.calls i).now x.lastSeen := by
  intro x hx
  obtain ⟨e, he, rfl⟩ := List.mem_map.mp hx
  exact h.fresh item hitem e he i

/-- Every version fits one list. -/
theorem length_le (h : Tally sys versions) (hwindow : SharedWindow sys tags)
    (hitem : item ∈ sys.items versions) : item.recent.length ≤ maxRecentVisitors := by
  rw [← List.length_map StoredVisitor.tag]
  refine hwindow.length_le (h.nodup item hitem) fun tag htag => ?_
  obtain ⟨w, -, hw⟩ := h.known item hitem tag htag
  exact ⟨w.author, hw⟩

/-- A refresh writes the tags of the version it was prepared from. -/
theorem map_tag_refresh (h : Tally sys versions) (hwindow : SharedWindow sys tags)
    (hitem : item ∈ sys.items versions) (hrefresh : Refreshes (sys.calls v.author) item v.request) :
    v.request.item.recent.map StoredVisitor.tag = item.recent.map StoredVisitor.tag := by
  have hmap : (refreshed (sys.visitorOf v).tag (sys.calls v.author).now
      (item.recent.map Visitor.ofStored)).map Visitor.tag = item.recent.map StoredVisitor.tag := by
    rw [map_tag_refreshed, List.map_map]
    rfl
  rw [← hmap]
  refine hrefresh.written.map_tag_of_fits ?_ ?_
  · intro x hx
    rcases mem_updateFirst hx with hold | ⟨found, -, rfl⟩
    · exact h.recent_of_mem hitem _ x hold
    · simp [Recent]
  · rw [← List.length_map Visitor.tag, hmap, List.length_map]
    exact h.length_le hwindow hitem

/-- A refreshed visitor has an entry in the version the refresh was prepared from. -/
theorem tag_mem_of_refresh (hrefresh : Refreshes (sys.calls v.author) item v.request) :
    (sys.visitorOf v).tag ∈ item.recent.map StoredVisitor.tag := by
  obtain ⟨found, hfind, -⟩ := hrefresh.known
  obtain ⟨e, he, rfl⟩ := List.mem_map.mp (List.mem_of_find?_eq_some hfind)
  have htag : e.tag = (sys.visitorOf v).tag := by simpa using List.find?_some hfind
  exact htag ▸ List.mem_map_of_mem he

/-- A pushed visitor has no entry in the version the push was prepared from. -/
theorem tag_notMem_of_push (h : Tally sys versions) (hitem : item ∈ sys.items versions)
    (hpush : Pushes (sys.calls v.author) item v.request) :
    (sys.visitorOf v).tag ∉ item.recent.map StoredVisitor.tag := by
  intro hmem
  obtain ⟨e, he, htag⟩ := List.mem_map.mp hmem
  exact hpush.stale (h.nodup item hitem) he htag (h.fresh item hitem e he _)

/-- A push writes the tags of the version it was prepared from, and its own. -/
theorem map_tag_push (h : Tally sys versions) (hwindow : SharedWindow sys tags)
    (hitem : item ∈ sys.items versions) (hpush : Pushes (sys.calls v.author) item v.request) :
    v.request.item.recent.map StoredVisitor.tag =
      item.recent.map StoredVisitor.tag ++ [(sys.visitorOf v).tag] := by
  have hmap : (item.recent.map Visitor.ofStored ++ [(sys.calls v.author).visitor]).map Visitor.tag =
      item.recent.map StoredVisitor.tag ++ [(sys.visitorOf v).tag] := by
    rw [List.map_append, List.map_map]
    rfl
  rw [← hmap]
  refine hpush.written.map_tag_of_fits ?_ ?_
  · intro x hx
    rcases List.mem_append.mp hx with hold | hnew
    · exact h.recent_of_mem hitem _ x hold
    · rw [List.mem_singleton.mp hnew]
      exact hwindow.recent_lastSeen _
  · rw [← List.length_map Visitor.tag, hmap]
    refine hwindow.length_le ?_ ?_
    · exact (h.nodup item hitem).append (List.nodup_singleton _)
        (List.disjoint_singleton.mpr (h.tag_notMem_of_push hitem hpush))
    · intro tag htag
      rcases List.mem_append.mp htag with hold | hnew
      · obtain ⟨w, -, hw⟩ := h.known item hitem tag hold
        exact ⟨w.author, hw⟩
      · exact ⟨v.author, (List.mem_singleton.mp hnew).symm⟩

/-- One more version keeps the tally when its tags are those of the versions with
its count, include every tag so far, and add no other than its author's. -/
theorem extend (h : Tally sys versions) {written : List UInt32}
    (hwritten : v.request.item.recent.map StoredVisitor.tag = written) (nodup : written.Nodup)
    (count : v.request.item.count.toNat = written.length)
    (fresh : ∀ e ∈ v.request.item.recent, ∀ i, Recent (sys.calls i).now e.time)
    (known : ∀ tag ∈ written, tag = (sys.visitorOf v).tag ∨
      ∃ w ∈ versions, (sys.visitorOf w).tag = tag)
    (self : (sys.visitorOf v).tag ∈ written) (grows : sys.storedTags versions ⊆ written)
    (ancestry : ∀ a ∈ sys.items versions, a.count = v.request.item.count →
      a.recent.map StoredVisitor.tag ⊆ written ∧ written ⊆ a.recent.map StoredVisitor.tag)
    (counted : v.request.counts = true →
      ∀ w ∈ versions, (sys.visitorOf w).tag ≠ (sys.visitorOf v).tag) :
    Tally sys (v :: versions) := by
  subst hwritten
  constructor
  · exact List.forall_mem_cons.mpr ⟨nodup, h.nodup⟩
  · exact List.forall_mem_cons.mpr ⟨by simpa using count, h.count⟩
  · exact List.forall_mem_cons.mpr ⟨fresh, h.fresh⟩
  · refine List.forall_mem_cons.mpr ⟨fun tag htag => ?_, fun item hitem tag htag => ?_⟩
    · rcases known tag htag with rfl | ⟨w, hw, rfl⟩
      · exact ⟨v, List.mem_cons_self, rfl⟩
      · exact ⟨w, List.mem_cons_of_mem _ hw, rfl⟩
    · obtain ⟨w, hw, rfl⟩ := h.known item hitem tag htag
      exact ⟨w, List.mem_cons_of_mem _ hw, rfl⟩
  · exact List.forall_mem_cons.mpr ⟨self, fun w hw => grows (h.complete w hw)⟩
  · refine List.forall_mem_cons.mpr ⟨?_, fun a ha => ?_⟩
    · refine List.forall_mem_cons.mpr ⟨fun _ => List.Subset.refl _, fun b hb hcount => ?_⟩
      exact (ancestry b hb hcount.symm).2
    · refine List.forall_mem_cons.mpr ⟨fun hcount => ?_, h.ancestry a ha⟩
      exact (ancestry a ha hcount).1
  · cases hcounts : v.request.counts with
    | false => simpa [hcounts] using h.counted_nodup
    | true =>
        simp only [List.filter_cons, hcounts, if_true, List.map_cons, List.nodup_cons]
        refine ⟨fun hmem => ?_, h.counted_nodup⟩
        obtain ⟨w, hw, htag⟩ := List.mem_map.mp hmem
        exact counted hcounts w (List.mem_of_mem_filter hw) htag

/-- An applied creation starts the tally. -/
theorem create (hwindow : SharedWindow sys tags)
    (hrep : Representable (sys.visitorOf v).lastSeen)
    (hrequest : v.request = ⟨none, ⟨1, ⟨[(sys.visitorOf v).stored]⟩⟩⟩)
    (hnone : sys.initial = none) : Tally sys [v] := by
  have hwritten : v.request.item.recent.map StoredVisitor.tag = [(sys.visitorOf v).tag] := by
    rw [hrequest]
    rfl
  refine (Tally.nil hnone).extend hwritten (List.nodup_singleton _) (by rw [hrequest]; rfl) ?_
    (by simp) (by simp) (by simp [System.storedTags, hnone]) (by simp [hnone]) (by simp)
  intro e he i
  rw [hrequest, StoredItem.recent_mk, List.mem_singleton] at he
  rw [he, Visitor.stored_time hrep]
  exact hwindow.within i _

/-- An applied refresh keeps the tally: the version it replaces has the tags of
the version it was prepared from. -/
theorem refresh (h : Tally sys versions) (hwindow : SharedWindow sys tags)
    (hitem : item ∈ sys.items versions) (hrefresh : Refreshes (sys.calls v.author) item v.request)
    (hholds : v.request.holds (sys.current versions) = true) : Tally sys (v :: versions) := by
  obtain ⟨cur, hcur, hcount⟩ := hrefresh.written.holds_iff.mp hholds
  have hself := tag_mem_of_refresh hrefresh
  have hmem := System.mem_items_of_current hcur
  refine h.extend (h.map_tag_refresh hwindow hitem hrefresh) (h.nodup item hitem) ?_ ?_
    (fun tag htag => Or.inr (h.known item hitem tag htag)) hself ?_ ?_ ?_
  · rw [hrefresh.count, List.length_map]
    exact h.count item hitem
  · intro e he i
    rcases hrefresh.mem_recent he with ⟨hold, -⟩ | ⟨-, htime⟩
    · exact h.fresh item hitem e hold i
    · rw [htime]
      exact hwindow.recent_floor_now i _
  · rw [System.storedTags, hcur]
    exact h.ancestry cur hmem item hitem hcount
  · intro a ha hsame
    rw [hrefresh.count] at hsame
    exact ⟨h.ancestry a ha item hitem hsame, h.ancestry item hitem a ha hsame.symm⟩
  · simp [hrefresh.counts_eq_false]

/-- An applied push keeps the tally: its visitor has no entry in the version it
replaces either, and no version had its count before. -/
theorem push (h : Tally sys versions) (hwindow : SharedWindow sys tags)
    (hitem : item ∈ sys.items versions) (hpush : Pushes (sys.calls v.author) item v.request)
    (hholds : v.request.holds (sys.current versions) = true) : Tally sys (v :: versions) := by
  obtain ⟨cur, hcur, hcount⟩ := hpush.written.holds_iff.mp hholds
  have hmem := System.mem_items_of_current hcur
  have hnotMem := h.tag_notMem_of_push hitem hpush
  have hwritten := h.map_tag_push hwindow hitem hpush
  have hlength := h.length_le hwindow hitem
  have hnext : v.request.item.count.toNat = item.recent.length + 1 := by
    rw [hpush.count, toNat_add_one, h.count item hitem]
    rw [h.count item hitem]
    exact lt_of_le_of_lt hlength (by rw [maxRecentVisitors_eq]; norm_num)
  -- The put may replace another version than it was prepared from, with the same tags.
  have hcurItem : cur.recent.map StoredVisitor.tag ⊆ item.recent.map StoredVisitor.tag :=
    h.ancestry cur hmem item hitem hcount
  have hknown : ∀ w ∈ versions, (sys.visitorOf w).tag ∈ cur.recent.map StoredVisitor.tag := by
    intro w hw
    have hw := h.complete w hw
    rwa [System.storedTags, hcur] at hw
  refine h.extend hwritten ?_ ?_ ?_ ?_ (List.mem_append_right _ List.mem_cons_self) ?_ ?_ ?_
  · exact (h.nodup item hitem).append (List.nodup_singleton _)
      (List.disjoint_singleton.mpr hnotMem)
  · simp [hnext]
  · intro e he i
    rcases hpush.mem_recent he with ⟨hold, -⟩ | ⟨-, htime⟩
    · exact h.fresh item hitem e hold i
    · rw [htime]
      exact hwindow.within i _
  · intro tag htag
    rcases List.mem_append.mp htag with hold | hnew
    · exact Or.inr (h.known item hitem tag hold)
    · exact Or.inl (List.mem_singleton.mp hnew)
  · rw [System.storedTags, hcur]
    exact List.Subset.trans hcurItem (List.subset_append_left _ _)
  · intro a ha hsame
    -- The tags of `a` are among those of `cur`, so `a` is no longer than `item`.
    have hsub : a.recent.map StoredVisitor.tag ⊆ item.recent.map StoredVisitor.tag := by
      intro tag htag
      obtain ⟨w, hw, rfl⟩ := h.known a ha tag htag
      exact hcurItem (hknown w hw)
    have hshort := ((h.nodup a ha).subperm hsub).length_le
    rw [List.length_map, List.length_map, ← h.count a ha, hsame, hnext] at hshort
    omega
  · intro _ w hw htag
    rw [← htag] at hnotMem
    exact hnotMem (hcurItem (hknown w hw))

end Tally

/-- **Every history of a shared window is tallied.** -/
theorem Lineage.tally {versions : List (Version ι)} (h : Lineage sys versions)
    (hnone : sys.initial = none) (hwindow : SharedWindow sys tags) : Tally sys versions := by
  induction h with
  | nil => exact Tally.nil hnone
  | @put versions v loaded hlineage hprep hholds ih =>
      rcases hprep.cases with ⟨rfl, hrep, hrequest⟩ | ⟨item, hitem, rfl, hrefresh | hpush⟩
      · rw [hrequest, PutRequest.holds_none_left, System.current_eq_none_iff] at hholds
        obtain ⟨rfl, -⟩ := hholds
        exact Tally.create hwindow hrep hrequest hnone
      · exact ih.refresh hwindow hitem hrefresh hholds
      · exact ih.push hwindow hitem hpush hholds

/-- The tally in terms of the current item. -/
theorem Tally.stored {versions : List (Version ι)} (h : Tally sys versions) :
    sys.storedCount versions = (sys.storedTags versions).length ∧
      (sys.storedTags versions).Nodup ∧
      ∀ tag, tag ∈ sys.storedTags versions ↔ ∃ v ∈ versions, (sys.visitorOf v).tag = tag := by
  unfold System.storedCount
  cases hcur : sys.current versions with
  | none =>
      obtain ⟨rfl, hnone⟩ := System.current_eq_none_iff.mp hcur
      simp [System.storedTags, hnone]
  | some cur =>
      have hmem := System.mem_items_of_current hcur
      have htags : sys.storedTags versions = cur.recent.map StoredVisitor.tag := by
        rw [System.storedTags, hcur]
      refine ⟨by simp [htags, h.count cur hmem], htags ▸ h.nodup cur hmem, fun tag => ⟨?_, ?_⟩⟩
      · intro htag
        exact h.known cur hmem tag (htags ▸ htag)
      · rintro ⟨v, hv, rfl⟩
        exact h.complete v hv

/-- The tags of the invocations of which a put was applied. -/
def System.appliedTags (sys : System ι) (versions : List (Version ι)) : Finset UInt32 :=
  (versions.map fun v => (sys.visitorOf v).tag).toFinset

variable [DecidableEq ι]

/-- **Distinct-visitor counting.**  From a table without the item, and as long as
all visits share a window, every state has the count of the distinct tags of the
invocations with an applied put, and exactly these tags on its list.  No two
counted puts have the same tag. -/
theorem distinct_visitors_counted {sys : System ι} {tags : Finset UInt32}
    (hnone : sys.initial = none) (hwindow : SharedWindow sys tags) {trace : List (Event ι)}
    {s : State ι} (run : Run (Step sys) sys.start trace s) :
    sys.storedCount s.versions = (sys.appliedTags s.versions).card ∧
      (sys.storedTags s.versions).Nodup ∧
      (sys.storedTags s.versions).toFinset = sys.appliedTags s.versions ∧
      ((s.versions.filter (·.request.counts)).map fun v => (sys.visitorOf v).tag).Nodup := by
  have htally := (Coherent.run run).lineage.tally hnone hwindow
  obtain ⟨hcount, hnodup, hmem⟩ := htally.stored
  have hsame : (sys.storedTags s.versions).toFinset = sys.appliedTags s.versions := by
    ext tag
    simp [System.appliedTags, hmem]
  refine ⟨?_, hnodup, hsame, htally.counted_nodup⟩
  rw [hcount, ← hsame, List.toFinset_card_of_nodup hnodup]

/-- Three requests within a minute, two of them by one visitor. -/
def threeRequests : System (Fin 3) where
  calls i := ⟨⟨if i = 2 then 8 else 7, 1_690_000_100_000_000_000⟩, 1_690_000_130_000_000_000⟩
  initial := none

/-- Two requests of one visitor race for the creation, the one of the other
visitor works on a stale read, and the creation is delivered again: two visitors. -/
theorem distinct_visitors_counted_threeRequests :
    ∃ trace s, Run (Step threeRequests) threeRequests.start trace s ∧
      2 = (threeRequests.appliedTags s.versions).card := by
  have run : Run (Step threeRequests) threeRequests.start
      [.putAgain 0 ⟨none, ⟨1, ⟨[⟨7, 100⟩]⟩⟩⟩ false,
        .put 2 ⟨some 1, ⟨2, ⟨[⟨7, 100⟩, ⟨8, 100⟩]⟩⟩⟩ true,
        .put 1 ⟨some 1, ⟨1, ⟨[⟨7, 130⟩]⟩⟩⟩ true,
        .get 2 (some ⟨1, ⟨[⟨7, 100⟩]⟩⟩),
        .get 1 (some ⟨1, ⟨[⟨7, 100⟩]⟩⟩),
        .reply 1 false,
        .put 1 ⟨none, ⟨1, ⟨[⟨7, 100⟩]⟩⟩⟩ false,
        .put 0 ⟨none, ⟨1, ⟨[⟨7, 100⟩]⟩⟩⟩ true,
        .get 1 none,
        .get 0 none] _ :=
    run_of_exec (fun _ _ _ => step_sound) rfl
  have hwindow : SharedWindow threeRequests {7, 8} := ⟨by decide, by decide, by decide, by decide⟩
  exact ⟨_, _, run, (distinct_visitors_counted rfl hwindow run).1⟩

end VisitorCounter

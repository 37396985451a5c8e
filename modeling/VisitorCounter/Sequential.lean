import VisitorCounter.Window
import VisitorCounter.RoundTrip

/-!
# Visits one after the other

Without overlapping calls the stored item gives the answers of the sliding
window: what was pruned can no longer decide anything, what is left has the last
time of every visitor inside the window, and the rounding of stored times is that
of the window.  The calls here are those of `Store` on a table without failures.

## Main Definitions

* `Follows`, `Reflects`: what the stored item has of the history
* `serve`: the calls of a sequence of visits
* `runningCounts`: the answers of the sliding window

## Main Results

* `attempt_reflects`: an attempt decides as the sliding window and keeps `Reflects`
* `run_maybeIncrementVisitors`: a call on the table is one attempt
* `serve_eq`: the calls of a sequence on the table
* `sequential_window`: sequential runs implement the sliding window
-/

namespace VisitorCounter

open RecencyList

/-! ### The item and the history -/

/-- What a stored item has of a history of visits, newest first. -/
structure Follows (item : StoredItem) (history : List Decision) : Prop where
  count : item.count.toNat = history.countP Decision.counted
  tags_nodup : (item.recent.map StoredVisitor.tag).Nodup
  length_le : item.recent.length ≤ maxRecentVisitors
  /-- Every entry is the time of a visit. -/
  sound : ∀ e ∈ item.recent, ∃ d ∈ history, d.tag = e.tag ∧ d.seenAt = e.time
  /-- A visitor inside the window of the last visit has an entry. -/
  complete : ∀ last ∈ history.head?, ∀ d ∈ history, Recent last.visit.now d.seenAt →
    ∃ e ∈ item.recent, e.tag = d.tag ∧ d.seenAt ≤ e.time

/-- There is no item before the first visit; later it follows the history. -/
def Reflects (loaded : Option StoredItem) (history : List Decision) : Prop :=
  match loaded with
  | none => history = []
  | some item => Follows item history

section Attempt

variable {visit : Invocation} {earlier : List Invocation} {item : StoredItem}
  {request : PutRequest}

/-- No stored entry is later than the next visit. -/
theorem Follows.entry_le (h : Follows item (decisions earlier))
    (hvisits : Sequential (visit :: earlier)) : ∀ e ∈ item.recent, e.time ≤ visit.now := by
  intro e he
  obtain ⟨d, hd, -, htime⟩ := h.sound e he
  have hseen := Decision.seenAt_le_now (hvisits.2.of_mem d hd).1
  have hnow := hvisits.now_le d hd
  have hlast := hvisits.1.seen_le
  omega

/-- Visits inside the window of the next visit have an entry. -/
theorem Follows.exists_entry (h : Follows item (decisions earlier))
    (hvisits : Sequential (visit :: earlier)) {d : Decision} (hd : d ∈ decisions earlier)
    (hrecent : Recent visit.now d.seenAt) :
    ∃ e ∈ item.recent, e.tag = d.tag ∧ d.seenAt ≤ e.time ∧ Recent visit.now e.time := by
  obtain ⟨last, hlast⟩ : ∃ last, last ∈ (decisions earlier).head? := by
    cases hdecisions : decisions earlier with
    | nil =>
        rw [hdecisions] at hd
        cases hd
    | cons last rest => exact ⟨last, rfl⟩
  have hbefore := hvisits.now_le last (List.mem_of_mem_head? hlast)
  have hseen := hvisits.1.seen_le
  unfold Recent at hrecent
  obtain ⟨e, he, htag, htime⟩ := h.complete last hlast d hd (by unfold Recent; omega)
  exact ⟨e, he, htag, htime, by unfold Recent; omega⟩

/-- An attempt refreshes only a visitor that the window does not count. -/
theorem Follows.counted_of_refreshes (h : Follows item (decisions earlier))
    (hrefresh : Refreshes visit item request) :
    (decideVisit (decisions earlier) visit).counted = false := by
  obtain ⟨found, hfind, -, hrecent⟩ := hrefresh.known
  obtain ⟨e, he, rfl⟩ := List.mem_map.mp (List.mem_of_find?_eq_some hfind)
  have htag : e.tag = visit.visitor.tag := by simpa using List.find?_some hfind
  obtain ⟨d, hd, hdtag, htime⟩ := h.sound e he
  refine decide_eq_false fun hnone => hnone ⟨d, hd, hdtag.trans htag, ?_⟩
  rw [htime]
  exact hrecent

/-- An attempt pushes only a visitor that the window counts. -/
theorem Follows.counted_of_pushes (h : Follows item (decisions earlier))
    (hvisits : Sequential (visit :: earlier)) (hpush : Pushes visit item request) :
    (decideVisit (decisions earlier) visit).counted = true := by
  rw [decideVisit_counted_iff]
  rintro ⟨d, hd, htag, hrecent⟩
  obtain ⟨e, he, hetag, -, hfresh⟩ := h.exists_entry hvisits hd hrecent
  exact hpush.stale h.tags_nodup he (hetag.trans htag) hfresh

/-- The retained list of an attempt fits: its tags are distinct and in the window. -/
theorem Follows.length_retained_le (h : Follows item (decisions earlier))
    (hvisits : Sequential (visit :: earlier)) {memory : List Visitor}
    (hmemory : ∀ v ∈ memory, v ∈ item.recent.map Visitor.ofStored ∨ v.tag = visit.visitor.tag)
    (hnodup : ((recentOnly visit.now memory).map Visitor.tag).Nodup) :
    (recentOnly visit.now memory).length ≤ maxRecentVisitors := by
  rw [← List.length_map Visitor.tag, ← List.toFinset_card_of_nodup hnodup]
  refine (Finset.card_le_card fun tag htag => ?_).trans hvisits.1.fits
  obtain ⟨v, hv, rfl⟩ := List.mem_map.mp (List.mem_toFinset.mp htag)
  obtain ⟨hmem, hrecent⟩ := List.mem_filter.mp hv
  rw [windowTags, Finset.mem_insert]
  rcases hmemory v hmem with hold | hown
  · obtain ⟨e, he, rfl⟩ := List.mem_map.mp hold
    obtain ⟨d, hd, hdtag, htime⟩ := h.sound e he
    refine Or.inr (List.mem_toFinset.mpr (List.mem_map.mpr
      ⟨d, List.mem_filter.mpr ⟨hd, ?_⟩, hdtag⟩))
    rw [htime]
    exact hrecent
  · exact Or.inl hown

/-- A refresh keeps the item in step with the history. -/
theorem Follows.refresh (h : Follows item (decisions earlier))
    (hvisits : Sequential (visit :: earlier)) (hrefresh : Refreshes visit item request) :
    Follows request.item (decisions (visit :: earlier)) := by
  have hcounted := h.counted_of_refreshes hrefresh
  have hseenAt : (decideVisit (decisions earlier) visit).seenAt = floorToSeconds visit.now := by
    rw [Decision.seenAt, hcounted]
    rfl
  have hnodup := hrefresh.tags_nodup h.tags_nodup
  have hmemory : ∀ v ∈ refreshed visit.visitor.tag visit.now (item.recent.map Visitor.ofStored),
      v ∈ item.recent.map Visitor.ofStored ∨ v.tag = visit.visitor.tag := by
    intro v hv
    rcases mem_updateFirst hv with hold | ⟨found, hfind, rfl⟩
    · exact Or.inl hold
    · exact Or.inr (by simpa using List.find?_some hfind)
  have hretained : ((recentOnly visit.now (refreshed visit.visitor.tag visit.now
      (item.recent.map Visitor.ofStored))).map Visitor.tag).Nodup := by
    refine (List.filter_sublist.map Visitor.tag).nodup ?_
    rw [map_tag_refreshed, List.map_map]
    exact h.tags_nodup
  have hfits := h.length_retained_le hvisits hmemory hretained
  refine ⟨?_, hnodup, hrefresh.written.length_recent_le, ?_, ?_⟩
  · rw [hrefresh.count, h.count, decisions, List.countP_cons_of_neg (by simp [hcounted])]
  · intro e he
    rcases hrefresh.mem_recent he with ⟨hold, -⟩ | ⟨htag, htime⟩
    · obtain ⟨d, hd, hboth⟩ := h.sound e hold
      exact ⟨d, List.mem_cons_of_mem _ hd, hboth⟩
    · exact ⟨_, List.mem_cons_self, htag.symm, hseenAt.trans htime.symm⟩
  · intro last hlast d hd hrecent
    obtain rfl := Option.mem_some_iff.mp hlast
    rcases List.mem_cons.mp hd with rfl | hd
    · obtain ⟨e, he, hetag, hetime⟩ := hrefresh.exists_own_mem hfits
      exact ⟨e, he, hetag, (hseenAt.trans hetime.symm).le⟩
    · -- An earlier visit has an entry, which was kept or moved to a later time.
      obtain ⟨e, he, hetag, hle, hfresh⟩ := h.exists_entry hvisits hd hrecent
      obtain ⟨w, hw, hwtag, hwtime | hwtime⟩ := hrefresh.exists_kept_mem hfits he hfresh
      · exact ⟨w, hw, hwtag.trans hetag, hle.trans hwtime.ge⟩
      · refine ⟨w, hw, hwtag.trans hetag, hle.trans ?_⟩
        rw [hwtime, ← floorToSeconds_time e]
        exact floorToSeconds_mono (h.entry_le hvisits e he)

/-- A push keeps the item in step with the history. -/
theorem Follows.push (h : Follows item (decisions earlier))
    (hvisits : Sequential (visit :: earlier)) (hpush : Pushes visit item request) :
    Follows request.item (decisions (visit :: earlier)) := by
  have hcounted := h.counted_of_pushes hvisits hpush
  have hseenAt : (decideVisit (decisions earlier) visit).seenAt =
      floorToSeconds visit.visitor.lastSeen := by
    rw [Decision.seenAt, hcounted]
    rfl
  have hbelow := countP_counted_lt hvisits.2
  have hmemory : ∀ v ∈ item.recent.map Visitor.ofStored ++ [visit.visitor],
      v ∈ item.recent.map Visitor.ofStored ∨ v.tag = visit.visitor.tag := by
    intro v hv
    rcases List.mem_append.mp hv with hold | hnew
    · exact Or.inl hold
    · exact Or.inr (by rw [List.mem_singleton.mp hnew])
  have hfits := h.length_retained_le hvisits hmemory (hpush.retained_tags_nodup h.tags_nodup)
  refine ⟨?_, hpush.tags_nodup h.tags_nodup, hpush.written.length_recent_le, ?_, ?_⟩
  · rw [hpush.count, toNat_add_one (by rw [h.count]; omega), h.count, decisions,
      List.countP_cons_of_pos hcounted]
  · intro e he
    rcases hpush.mem_recent he with ⟨hold, -⟩ | ⟨htag, htime⟩
    · obtain ⟨d, hd, hboth⟩ := h.sound e hold
      exact ⟨d, List.mem_cons_of_mem _ hd, hboth⟩
    · exact ⟨_, List.mem_cons_self, htag.symm, hseenAt.trans htime.symm⟩
  · intro last hlast d hd hrecent
    obtain rfl := Option.mem_some_iff.mp hlast
    rcases List.mem_cons.mp hd with rfl | hd
    · -- The visit itself: it is written unless it is stale by now, rounding included.
      have hfloor := floorToSeconds_le visit.visitor.lastSeen
      rw [hseenAt] at hrecent
      have hfresh : Recent visit.now visit.visitor.lastSeen := by
        unfold Recent at hrecent ⊢
        change visit.now - floorToSeconds visit.visitor.lastSeen < _ at hrecent
        omega
      obtain ⟨e, he, hetag, hetime⟩ := hpush.exists_own_mem hfits hfresh
      exact ⟨e, he, hetag, (hseenAt.trans hetime.symm).le⟩
    · -- An earlier visit has an entry, which the push keeps.
      obtain ⟨e, he, hetag, hle, hfresh⟩ := h.exists_entry hvisits hd hrecent
      exact ⟨e, hpush.mem_of_mem hfits he hfresh, hetag, hle⟩

/-- A creation starts the item in step with the history. -/
theorem follows_create (hattempt : visit.attempt none = .ok request) :
    Follows request.item (decisions [visit]) := by
  obtain ⟨hrep, rfl⟩ := attempt_none_eq_ok_iff.mp hattempt
  have hseenAt : (decideVisit [] visit).seenAt = visit.visitor.stored.time := by
    rw [Visitor.stored_time hrep, Decision.seenAt]
    simp [decideVisit]
  refine ⟨by simp [decisions, decideVisit], by simp, by simp [maxRecentVisitors_eq], ?_, ?_⟩
  · intro e he
    obtain rfl := List.mem_singleton.mp he
    exact ⟨_, List.mem_cons_self, rfl, hseenAt⟩
  · intro last hlast d hd hrecent
    obtain rfl := List.mem_singleton.mp hd
    exact ⟨_, List.mem_cons_self, rfl, hseenAt.le⟩

/-- **An attempt decides as the sliding window.**  On an item in step with the
history it issues a put whose condition holds, and the item stays in step. -/
theorem attempt_reflects {loaded : Option StoredItem} (h : Reflects loaded (decisions earlier))
    (hvisits : Sequential (visit :: earlier)) :
    ∃ request, visit.attempt loaded = .ok request ∧ request.holds loaded = true ∧
      Follows request.item (decisions (visit :: earlier)) := by
  obtain ⟨request, hattempt⟩ : ∃ request, visit.attempt loaded = .ok request := by
    refine exists_attempt_eq_ok hvisits.1.seen_le hvisits.1.seen_representable
      hvisits.1.now_representable ?_
    cases loaded with
    | none => exact fun e he => absurd he List.not_mem_nil
    | some item => exact Follows.entry_le h hvisits
  refine ⟨request, hattempt, ?_⟩
  cases loaded with
  | none =>
      obtain rfl : earlier = [] := by
        cases earlier with
        | nil => rfl
        | cons previous rest => cases h
      obtain ⟨-, rfl⟩ := attempt_none_eq_ok_iff.mp hattempt
      exact ⟨rfl, follows_create hattempt⟩
  | some item =>
      rcases attempt_some_cases hattempt with hrefresh | hpush
      · exact ⟨hrefresh.written.holds_iff.mpr ⟨item, rfl, rfl⟩,
          Follows.refresh h hvisits hrefresh⟩
      · exact ⟨hpush.written.holds_iff.mpr ⟨item, rfl, rfl⟩, Follows.push h hvisits hpush⟩

end Attempt

/-! ### A call on the table -/

section Call

variable {σ : Type} {db : DynamoTable σ} {ciborium : Ciborium} {tableName name : String} {s : σ}

/-- **A call on the table is one attempt**, when the attempt issues a put whose
condition holds on the stored item. -/
theorem run_maybeIncrementVisitors {stored : Option StoredItem} {visit : Invocation}
    {request : PutRequest}
    (hstored : db.items s name = stored.map (StoredItem.attributes ciborium name))
    (hfits : ∀ item ∈ stored, item.recent.length < 2 ^ 64)
    (hattempt : visit.attempt stored = .ok request) :
    ∃ s', ((db.store ciborium tableName).maybeIncrementVisitors visit.visitor name
          visit.now).run.run s = (.ok request.item.count, s') ∧
      db.items s' =
        Function.update (db.items s) name (some (request.item.attributes ciborium name)) := by
  have hget : ((db.store ciborium tableName).getCountEntry name).run.run s =
      (.ok (stored.map CountEntry.ofItem), s) := run_getCountEntry hstored hfits
  cases stored with
  | none =>
      obtain ⟨-, rfl⟩ := attempt_none_eq_ok_iff.mp hattempt
      obtain ⟨s', hput, hitems⟩ : ∃ s',
          ((db.store ciborium tableName).tryPutNewCountEntry name visit.visitor).run.run s =
            (.ok true, s') ∧ _ :=
        run_tryPutNewCountEntry hattempt hstored
      exact ⟨s', (run_bind_of_ok hget).trans ((run_bind_of_ok hput).trans rfl), hitems⟩
  | some item =>
      simp only [Invocation.attempt, bind_eq_ok_iff] at hattempt
      obtain ⟨recorded, hrecord, pruned, hprune, hentry⟩ := hattempt
      have hcount : request.item.count = pruned.count := by
        rw [(countEntryPut_eq_ok_iff.mp hentry).2]
      obtain ⟨s', hput, hitems⟩ : ∃ s',
          ((db.store ciborium tableName).tryPutCountEntry name item.count pruned).run.run s =
            (.ok true, s') ∧ _ :=
        run_tryPutCountEntry hentry hstored rfl
      refine ⟨s', (run_bind_of_ok hget).trans ?_, hitems⟩
      rw [hcount]
      refine (run_panicking_bind_of_ok hrecord s).trans ?_
      refine (run_panicking_bind_of_ok hprune s).trans ?_
      exact (run_bind_of_ok hput).trans rfl

end Call

/-! ### The calls of a sequence -/

/-- The calls of a sequence of visits, and their results, newest first.  A call
that fails does not stop the later ones. -/
def serve {m : Type → Type} [Monad m] (store : Store m) (name : String) :
    List Invocation → m (List (Except Failure UInt64))
  | [] => return []
  | visit :: earlier => do
      let results ← serve store name earlier
      let result ← (store.maybeIncrementVisitors visit.visitor name visit.now).run
      return result :: results

/-- The answers of the sliding window: after each visit, the number of visits
counted so far. -/
def runningCounts : List Decision → List ℕ
  | [] => []
  | d :: history => (d :: history).countP Decision.counted :: runningCounts history

/-- The stored count of a counter, `0` while it has no item. -/
def tableCount (items : String → Option Item) (name : String) : ℕ :=
  match (items name).map countAttribute with
  | some (.ok count) => count.toNat
  | _ => 0

/-- The calls of a sequence give the answers of the sliding window, and leave an
item that reflects the history. -/
theorem serve_eq {σ : Type} (db : DynamoTable σ) (ciborium : Ciborium) (tableName : String)
    {name : String} {visits : List Invocation} (h : Sequential visits) {s : σ}
    (hnone : db.items s name = none) :
    ∃ (stored : Option StoredItem) (s' : σ), Reflects stored (decisions visits) ∧
      (serve (db.store ciborium tableName) name visits).run s =
        ((runningCounts (decisions visits)).map fun n => .ok (UInt64.ofNat n), s') ∧
      db.items s' name = stored.map (StoredItem.attributes ciborium name) := by
  induction visits with
  | nil => exact ⟨none, s, rfl, rfl, hnone⟩
  | cons visit earlier ih =>
      obtain ⟨stored, before, hreflects, hserve, hstored⟩ := ih h.2
      obtain ⟨request, hattempt, -, hfollows⟩ := attempt_reflects hreflects h
      have hfits : ∀ item ∈ stored, item.recent.length < 2 ^ 64 := by
        rintro item rfl
        exact lt_of_le_of_lt (Follows.length_le hreflects) (by rw [maxRecentVisitors_eq]; norm_num)
      obtain ⟨after, hcall, hitems⟩ : ∃ after,
          ((db.store ciborium tableName).maybeIncrementVisitors visit.visitor name
            visit.now).run.run before = (.ok request.item.count, after) ∧ _ :=
        run_maybeIncrementVisitors hstored hfits hattempt
      have hcount : UInt64.ofNat ((decisions (visit :: earlier)).countP Decision.counted) =
          request.item.count := by
        rw [← hfollows.count, UInt64.ofNat_toNat]
      refine ⟨some request.item, after, hfollows, ?_, by rw [hitems, Function.update_self]; rfl⟩
      show (let before := (serve (db.store ciborium tableName) name earlier).run s
        let after := ((db.store ciborium tableName).maybeIncrementVisitors visit.visitor name
          visit.now).run.run before.2
        (after.1 :: before.1, after.2)) = _
      rw [hserve]
      dsimp only
      rw [hcall, ← hcount]
      rfl

/-- The stored count of an item in step with a history is its number of counted visits. -/
theorem tableCount_of_reflects {stored : Option StoredItem} {history : List Decision}
    (h : Reflects stored history) {items : String → Option Item} {name : String}
    (hstored : items name = stored.map (StoredItem.attributes ciborium name)) :
    tableCount items name = history.countP Decision.counted := by
  rw [tableCount, hstored]
  cases stored with
  | none =>
      obtain rfl : history = [] := h
      rfl
  | some item =>
      simp only [Option.map_some, countAttribute_attributes]
      exact Follows.count h

/-- The answers of the sliding window are no larger than a `u64`. -/
theorem lt_of_mem_runningCounts {visits : List Invocation} (h : Sequential visits) :
    ∀ n ∈ runningCounts (decisions visits), n < 2 ^ 64 := by
  induction visits with
  | nil => exact fun n hn => absurd hn List.not_mem_nil
  | cons visit earlier ih =>
      have hbelow := countP_counted_lt h
      refine List.forall_mem_cons.mpr ⟨?_, ih h.2⟩
      rw [decisions] at hbelow
      omega

/-- **Sequential runs implement the sliding window.**  Visits one after the other,
on a counter without an item, are answered with the number of visits that the
window has counted so far; none of the calls panics or fails, and each call
raises the stored count exactly when the window counts its visit. -/
theorem sequential_window {σ : Type} (db : DynamoTable σ) (ciborium : Ciborium)
    (tableName name : String) {visits : List Invocation} (h : Sequential visits) {s : σ}
    (hnone : db.items s name = none) :
    ((serve (db.store ciborium tableName) name visits).run s).1.map (Except.map UInt64.toNat) =
        (runningCounts (decisions visits)).map .ok ∧
      ∀ later visit earlier, visits = later ++ visit :: earlier →
        tableCount (db.items ((serve (db.store ciborium tableName) name
            (visit :: earlier)).run s).2) name =
          tableCount (db.items ((serve (db.store ciborium tableName) name earlier).run s).2) name +
            if ∃ d ∈ decisions earlier, d.tag = visit.visitor.tag ∧ Recent visit.now d.seenAt
              then 0 else 1 := by
  constructor
  · obtain ⟨stored, s', -, hserve, -⟩ := serve_eq db ciborium tableName h hnone
    rw [hserve, List.map_map]
    refine List.map_congr_left fun n hn => ?_
    have hlt := lt_of_mem_runningCounts h n hn
    simpa [Except.map] using hlt
  · rintro later visit earlier rfl
    obtain ⟨_, before, hbefore, hserve, hitem⟩ :=
      serve_eq db ciborium tableName h.of_append.2 hnone
    obtain ⟨_, after, hafter, hserve', hitem'⟩ := serve_eq db ciborium tableName h.of_append hnone
    rw [hserve, hserve', tableCount_of_reflects hbefore hitem, tableCount_of_reflects hafter hitem',
      decisions, List.countP_cons]
    by_cases hseen : ∃ d ∈ decisions earlier, d.tag = visit.visitor.tag ∧ Recent visit.now d.seenAt
    · rw [if_pos hseen, if_neg fun hcounted => decideVisit_counted_iff.mp hcounted hseen]
    · rw [if_neg hseen, if_pos (decideVisit_counted_iff.mpr hseen)]

/-- Three visits of one visitor; the last one is two hours after the second. -/
def threeVisits : List Invocation :=
  [⟨⟨7, 1_690_007_400_000_000_000⟩, 1_690_007_400_000_000_000⟩,
    ⟨⟨7, 1_690_000_200_000_000_000⟩, 1_690_000_200_900_000_000⟩,
    ⟨⟨7, 1_690_000_100_000_000_000⟩, 1_690_000_100_000_000_000⟩]

/-- The second visit extends the window, and the third one is counted again. -/
theorem sequential_window_threeVisits :
    ((serve (DynamoTable.reference.store Ciborium.reference "table") "default" threeVisits).run
      (fun _ => none)).1.map (Except.map UInt64.toNat) = [.ok 2, .ok 1, .ok 1] := by
  have h : Sequential threeVisits :=
    ⟨⟨by decide, by decide, by decide, by decide, by decide⟩,
      ⟨by decide, by decide, by decide, by decide, by decide⟩,
      ⟨by decide, by decide, by decide, by decide, by decide⟩, trivial⟩
  exact (sequential_window DynamoTable.reference Ciborium.reference "table" "default" h rfl).1

end VisitorCounter

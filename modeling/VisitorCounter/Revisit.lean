import VisitorCounter.Prune
import VisitorCounter.Sequential

/-!
# A visit made twice

A second call with the same visitor and the same `now` finds the entry that the
first call left and writes it back as it was.  It does so as long as the first
call left an entry: a list that is full of visitors of this very instant has no
room for another one, because the sort is stable and the new visitor is the last
of the tie.

## Main Definitions

* `Tidy`: what holds of every item that calls have written
* `Crowded`: a full list of other visitors, all seen at `now`

## Main Results

* `Lineage.tidy`: every version of a history is tidy
* `attempt_again`: an attempt on what an attempt wrote writes it once more
* `attempt_of_tied`: an attempt on visitors of this instant
* `revisit_idempotent_iff`: a second call repeats the first one unless the list
  is crowded
-/

namespace VisitorCounter

open Runs RecencyList

/-- What holds of every item that calls have written. -/
structure Tidy (item : StoredItem) : Prop where
  tags_nodup : (item.recent.map StoredVisitor.tag).Nodup
  length_le : item.recent.length ≤ maxRecentVisitors

theorem Tidy.length_lt {item : StoredItem} (h : Tidy item) : item.recent.length < 2 ^ 64 := by
  have hle := h.length_le
  rw [maxRecentVisitors_eq] at hle
  omega

/-- The list is full of other visitors, all of them seen at `now`. -/
def Crowded (item : Option StoredItem) (tag : UInt32) (now : ℤ) : Prop :=
  (entriesOf item).length = maxRecentVisitors ∧ ∀ e ∈ entriesOf item, e.time = now ∧ e.tag ≠ tag

instance (item : Option StoredItem) (tag : UInt32) (now : ℤ) : Decidable (Crowded item tag now) :=
  inferInstanceAs (Decidable (_ ∧ ∀ e ∈ entriesOf item, e.time = now ∧ e.tag ≠ tag))

/-! ### Reachable items -/

/-- An attempt on a tidy item, or on none, writes a tidy one. -/
theorem attempt_tidy {inv : Invocation} {loaded : Option StoredItem} {request : PutRequest}
    (hloaded : ∀ item ∈ loaded, Tidy item) (h : inv.attempt loaded = .ok request) :
    Tidy request.item := by
  cases loaded with
  | none =>
      obtain ⟨-, rfl⟩ := attempt_none_eq_ok_iff.mp h
      exact ⟨by simp, by simp [maxRecentVisitors_eq]⟩
  | some item =>
      have hitem := hloaded item rfl
      rcases attempt_some_cases h with hrefresh | hpush
      · exact ⟨hrefresh.tags_nodup hitem.tags_nodup, hrefresh.written.length_recent_le⟩
      · exact ⟨hpush.tags_nodup hitem.tags_nodup, hpush.written.length_recent_le⟩

/-- Every version of a history is tidy when the first item is, or is absent. -/
theorem Lineage.tidy {ι : Type} {sys : System ι} {versions : List (Version ι)}
    (h : Lineage sys versions) (hinitial : ∀ item ∈ sys.initial, Tidy item) :
    ∀ item ∈ sys.items versions, Tidy item := by
  induction h with
  | nil => simpa using hinitial
  | @put versions v loaded hlineage hprep hholds ih =>
      refine List.forall_mem_cons.mpr ⟨attempt_tidy ?_ hprep.attempt, ih⟩
      rcases hprep.serves with rfl | ⟨item, hitem, rfl⟩
      · exact fun item hitem => nomatch hitem
      · rintro _ ⟨⟩
        exact ih item hitem

/-! ### What a second attempt does -/

section Attempt

variable {inv : Invocation} {item : StoredItem} {request : PutRequest}

/-- A tidy item has one entry under a tag, and the lookup finds it. -/
theorem Tidy.find?_eq_some (hitem : Tidy item) {e : StoredVisitor} (he : e ∈ item.recent) :
    (item.recent.map Visitor.ofStored).find? (isTag e.tag) = some (Visitor.ofStored e) := by
  refine @find?_eq_some_of_nodup _ _ Visitor.tag _ _ _ ?_ ?_ ?_ ?_
  · rw [List.map_map]
    exact hitem.tags_nodup
  · exact List.mem_map_of_mem he
  · simp
  · intro v _ hv
    simpa using hv

/-- Moving an entry within its second does not change what is stored of it. -/
theorem Tidy.map_stored_refreshed (hitem : Tidy item) {tag : UInt32} {now : ℤ}
    (hmem : Visitor.stored ⟨tag, now⟩ ∈ item.recent) :
    (refreshed tag now (item.recent.map Visitor.ofStored)).map Visitor.stored = item.recent := by
  have hkeep : ∀ v, (item.recent.map Visitor.ofStored).find? (isTag tag) = some v →
      Visitor.stored { v with lastSeen := now } = v.stored := by
    intro v hfind
    have hown := hitem.find?_eq_some hmem
    rw [Visitor.stored_tag, hfind] at hown
    obtain rfl := Option.some.inj hown
    exact (Visitor.stored_ofStored _).symm
  rw [map_updateFirst_of_find? hkeep, map_stored_ofStored]

/-- An attempt whose visitor is on the list with the second it would record
writes the item back as it is. -/
theorem attempt_of_mem_stored {tag : UInt32} {now : ℤ} (hitem : Tidy item)
    (hrep : Representable now) (hle : ∀ e ∈ item.recent, e.time ≤ now)
    (hrecent : ∀ e ∈ item.recent, Recent now e.time)
    (hmem : Visitor.stored ⟨tag, now⟩ ∈ item.recent) :
    Invocation.attempt ⟨⟨tag, now⟩, now⟩ (some item) = .ok ⟨some item.count, item⟩ := by
  have hmemory : ∀ v ∈ refreshed tag now (item.recent.map Visitor.ofStored),
      v.lastSeen ≤ now ∧ Recent now v.lastSeen ∧ Representable v.lastSeen := by
    intro v hv
    rcases mem_updateFirst hv with hold | ⟨found, -, rfl⟩
    · obtain ⟨e, he, rfl⟩ := List.mem_map.mp hold
      exact ⟨hle e he, hrecent e he, representable_time e⟩
    · exact ⟨le_rfl, by simp [Recent], hrep⟩
  have hlength : (refreshed tag now (item.recent.map Visitor.ofStored)).length ≤
      maxRecentVisitors := by
    rw [← List.length_map Visitor.stored, hitem.map_stored_refreshed hmem]
    exact hitem.length_le
  have hfilter : recentOnly now (refreshed tag now (item.recent.map Visitor.ofStored)) =
      refreshed tag now (item.recent.map Visitor.ofStored) :=
    List.filter_eq_self.mpr fun v hv => decide_eq_true (hmemory v hv).2.1
  have hrecord : recordVisit (CountEntry.ofItem item) ⟨tag, now⟩ now =
      .ok ⟨item.count, refreshed tag now (item.recent.map Visitor.ofStored)⟩ :=
    recordVisit_of_recent (hitem.find?_eq_some hmem) (hle _ hmem) (hrecent _ hmem)
  have hculled : cull MoreRecent maxRecentVisitors (recentOnly now
      (refreshed tag now (item.recent.map Visitor.ofStored))) =
      refreshed tag now (item.recent.map Visitor.ofStored) := by
    rw [hfilter, cull_eq_self hlength]
  have hrepresentable : ∀ v ∈ cull MoreRecent maxRecentVisitors (recentOnly now
      (refreshed tag now (item.recent.map Visitor.ofStored))), Representable v.lastSeen := by
    rw [hculled]
    exact fun v hv => (hmemory v hv).2.2
  have hput : Invocation.attempt ⟨⟨tag, now⟩, now⟩ (some item) = .ok _ :=
    attempt_eq_ok_of_recordVisit hrecord (fun v hv => (hmemory v hv).1) hrepresentable
  rw [hculled, hitem.map_stored_refreshed hmem] at hput
  exact hput

/-- A visitor that a culling kept was written, and its time can be. -/
theorem Written.mem_stored {memory : List Visitor} {initialCount : UInt64}
    (h : Written inv initialCount memory request) {v : Visitor}
    (hv : v ∈ cull MoreRecent maxRecentVisitors (recentOnly inv.now memory)) :
    Representable v.lastSeen ∧ v.stored ∈ request.item.recent := by
  refine ⟨h.representable v hv, ?_⟩
  rw [h.recent]
  exact List.mem_map_of_mem hv

/-- A refresh writes the visitor. -/
theorem Refreshes.mem_stored {tag : UInt32} {now : ℤ} (hitem : Tidy item)
    (h : Refreshes ⟨⟨tag, now⟩, now⟩ item request) :
    Representable now ∧ Visitor.stored ⟨tag, now⟩ ∈ request.item.recent := by
  obtain ⟨found, hfind, -, -⟩ := h.known
  obtain rfl : found.tag = tag := by simpa using List.find?_some hfind
  have hlength : (recentOnly now (refreshed found.tag now
      (item.recent.map Visitor.ofStored))).length ≤ maxRecentVisitors := by
    refine (List.length_filter_le _ _).trans ?_
    rw [← List.length_map Visitor.tag, map_tag_refreshed]
    simpa using hitem.length_le
  have hkept : (⟨found.tag, now⟩ : Visitor) ∈ cull MoreRecent maxRecentVisitors
      (recentOnly now (refreshed found.tag now (item.recent.map Visitor.ofStored))) := by
    rw [cull_eq_self hlength]
    exact List.mem_filter.mpr ⟨apply_mem_updateFirst hfind, by simp [Recent]⟩
  exact h.written.mem_stored hkept

/-- A push writes the visitor, unless the list is crowded. -/
theorem Pushes.mem_stored {tag : UInt32} {now : ℤ} (hitem : Tidy item)
    (h : Pushes ⟨⟨tag, now⟩, now⟩ item request) (hle : ∀ e ∈ item.recent, e.time ≤ now)
    (hcrowded : ¬ Crowded (some item) tag now) :
    Representable now ∧ Visitor.stored ⟨tag, now⟩ ∈ request.item.recent := by
  have hlength : (item.recent.map Visitor.ofStored).length ≤ maxRecentVisitors := by
    rw [List.length_map]
    exact hitem.length_le
  have hkept : (⟨tag, now⟩ : Visitor) ∈ cull MoreRecent maxRecentVisitors
      (recentOnly now (item.recent.map Visitor.ofStored ++ [⟨tag, now⟩])) := by
    refine mem_cull_filter_append_singleton hlength (by simp [Recent]) fun hfull hall => ?_
    -- a full list of recent entries has none of the visitor, so one is earlier than `now`
    by_contra hnone
    refine hcrowded ⟨(List.length_map _).symm.trans hfull, fun e he => ⟨?_, fun htag => ?_⟩⟩
    · by_contra hne
      have hearlier : e.time < now := lt_of_le_of_ne (hle e he) hne
      exact hnone ⟨_, List.mem_map_of_mem he, not_le.mpr hearlier⟩
    · exact h.stale hitem.tags_nodup he htag
        (of_decide_eq_true (hall _ (List.mem_map_of_mem he)))
  exact h.written.mem_stored hkept

/-- What an attempt of a visit writes is recent and no later than the visit. -/
theorem recent_of_attempt {tag : UInt32} {now : ℤ} {loaded : Option StoredItem}
    (h : Invocation.attempt ⟨⟨tag, now⟩, now⟩ loaded = .ok request) :
    ∀ e ∈ request.item.recent, e.time ≤ now ∧ Recent now e.time := by
  intro e he
  cases loaded with
  | none =>
      obtain ⟨hrep, rfl⟩ := attempt_none_eq_ok_iff.mp h
      have htime : (Visitor.stored ⟨tag, now⟩).time = floorToSeconds now := Visitor.stored_time hrep
      rw [List.mem_singleton.mp he, htime]
      exact ⟨floorToSeconds_le now, recent_floorToSeconds_self now⟩
  | some item =>
      rcases attempt_some_cases h with hrefresh | hpush
      · refine ⟨hrefresh.written.le_now he, ?_⟩
        rcases hrefresh.mem_recent he with ⟨-, hrecent⟩ | ⟨-, htime⟩
        · exact hrecent
        · rw [htime]
          exact recent_floorToSeconds_self now
      · refine ⟨hpush.written.le_now he, ?_⟩
        rcases hpush.mem_recent he with ⟨-, hrecent⟩ | ⟨-, htime⟩
        · exact hrecent
        · rw [htime]
          exact recent_floorToSeconds_self now

/-- **An attempt on what an attempt wrote writes it once more**, unless the first
one found a crowded list. -/
theorem attempt_again {tag : UInt32} {now : ℤ} {loaded : Option StoredItem}
    (hloaded : ∀ item ∈ loaded, Tidy item) (hle : ∀ e ∈ entriesOf loaded, e.time ≤ now)
    (hcrowded : ¬ Crowded loaded tag now)
    (h : Invocation.attempt ⟨⟨tag, now⟩, now⟩ loaded = .ok request) :
    Visitor.stored ⟨tag, now⟩ ∈ request.item.recent ∧
      Invocation.attempt ⟨⟨tag, now⟩, now⟩ (some request.item) =
        .ok ⟨some request.item.count, request.item⟩ := by
  have hown : Representable now ∧ Visitor.stored ⟨tag, now⟩ ∈ request.item.recent := by
    cases loaded with
    | none =>
        obtain ⟨hrep, rfl⟩ := attempt_none_eq_ok_iff.mp h
        exact ⟨hrep, List.mem_cons_self⟩
    | some item =>
        rcases attempt_some_cases h with hrefresh | hpush
        · exact hrefresh.mem_stored (hloaded item rfl)
        · exact hpush.mem_stored (hloaded item rfl) hle hcrowded
  have hwritten := recent_of_attempt h
  exact ⟨hown.2, attempt_of_mem_stored (attempt_tidy hloaded h) hown.1
    (fun e he => (hwritten e he).1) (fun e he => (hwritten e he).2) hown.2⟩

/-- On a list of other visitors of this instant the visitor is added at the end,
where the cut of a full list drops it. -/
theorem attempt_of_tied {tag : UInt32} {now : ℤ} (hrep : Representable now)
    (htied : ∀ e ∈ item.recent, e.time = now ∧ e.tag ≠ tag) :
    Invocation.attempt ⟨⟨tag, now⟩, now⟩ (some item) = .ok ⟨some item.count, ⟨item.count + 1,
      ⟨(item.recent ++ [Visitor.stored ⟨tag, now⟩]).take maxRecentVisitors⟩⟩⟩ := by
  have hmemory : ∀ v ∈ item.recent.map Visitor.ofStored ++ [⟨tag, now⟩], v.lastSeen = now := by
    intro v hv
    rcases List.mem_append.mp hv with hold | hnew
    · obtain ⟨e, he, rfl⟩ := List.mem_map.mp hold
      exact (htied e he).1
    · rw [List.mem_singleton.mp hnew]
  have hfilter : recentOnly now (item.recent.map Visitor.ofStored ++ [⟨tag, now⟩]) =
      item.recent.map Visitor.ofStored ++ [⟨tag, now⟩] :=
    List.filter_eq_self.mpr fun v hv => decide_eq_true (by rw [hmemory v hv]; simp [Recent])
  have hordered : (item.recent.map Visitor.ofStored ++ [(⟨tag, now⟩ : Visitor)]).Pairwise
      MoreRecent := by
    apply List.pairwise_of_forall_mem_list
    intro left hleft right hright
    exact ((hmemory right hright).trans (hmemory left hleft).symm).le
  have hunknown : ∀ found, (CountEntry.ofItem item).recentVisitors.find? (isTag tag) =
      some found → found.lastSeen ≤ now ∧ ¬ Recent now found.lastSeen := by
    intro found hfind
    obtain ⟨e, he, rfl⟩ := List.mem_map.mp (List.mem_of_find?_eq_some hfind)
    exact absurd (by simpa using List.find?_some hfind) (htied e he).2
  have hrecord : recordVisit (CountEntry.ofItem item) ⟨tag, now⟩ now =
      .ok ⟨item.count + 1, item.recent.map Visitor.ofStored ++ [⟨tag, now⟩]⟩ :=
    recordVisit_of_not_recent hunknown
  have hput : Invocation.attempt ⟨⟨tag, now⟩, now⟩ (some item) = .ok ⟨some item.count,
      ⟨item.count + 1, ⟨(cull MoreRecent maxRecentVisitors (recentOnly now
        (item.recent.map Visitor.ofStored ++ [⟨tag, now⟩]))).map Visitor.stored⟩⟩⟩ := by
    refine @attempt_eq_ok_of_recordVisit ⟨⟨tag, now⟩, now⟩ item _ hrecord ?_ ?_
    · exact fun v hv => (hmemory v hv).le
    · intro v hv
      rw [hmemory v (List.mem_of_mem_filter (mem_of_mem_cull hv))]
      exact hrep
  rw [hput, hfilter, cull_of_pairwise hordered, List.map_take, List.map_append,
    map_stored_ofStored]
  rfl

end Attempt

/-! ### Two calls on the table -/

section Call

variable {σ : Type} {db : DynamoTable σ} {ciborium : Ciborium} {tableName name : String} {t : σ}

/-- What a call on the table returns, and the table after it. -/
def DynamoTable.call (db : DynamoTable σ) (ciborium : Ciborium) (tableName name : String)
    (visit : Invocation) (t : σ) : Except Failure UInt64 × σ :=
  ((db.store ciborium tableName).maybeIncrementVisitors visit.visitor name visit.now).run.run t

/-- A call whose attempt panics does not return. -/
theorem run_maybeIncrementVisitors_of_panic {stored : Option StoredItem} {visit : Invocation}
    {panic : Panic} (hstored : db.items t name = stored.map (StoredItem.attributes ciborium name))
    (hfits : ∀ item ∈ stored, item.recent.length < 2 ^ 64)
    (hattempt : visit.attempt stored = .error panic) :
    db.call ciborium tableName name visit t = (.error (.panic panic), t) := by
  have hget : ((db.store ciborium tableName).getCountEntry name).run.run t =
      (.ok (stored.map CountEntry.ofItem), t) := run_getCountEntry hstored hfits
  refine (run_bind_of_ok hget).trans ?_
  cases stored with
  | none =>
      have hinput : newCountEntryInput ciborium tableName name visit.visitor = .error panic := by
        simp only [Invocation.attempt, newCountEntryPut, newCountEntryInput, bind_eq_error_iff,
          pure, Except.pure, reduceCtorEq, and_false, exists_false, or_false] at hattempt ⊢
        exact hattempt
      exact run_bind_of_error (run_panicking_bind_of_error hinput t)
  | some item =>
      simp only [Invocation.attempt] at hattempt
      rcases bind_eq_error_iff.mp hattempt with hrecord | ⟨recorded, hrecord, hattempt⟩
      · exact run_panicking_bind_of_error hrecord t
      refine (run_panicking_bind_of_ok hrecord t).trans ?_
      rcases bind_eq_error_iff.mp hattempt with hprune | ⟨pruned, hprune, hput⟩
      · exact run_panicking_bind_of_error hprune t
      refine (run_panicking_bind_of_ok hprune t).trans ?_
      have hinput : countEntryInput ciborium tableName name item.count pruned = .error panic := by
        simp only [countEntryPut, countEntryInput, bind_eq_error_iff, pure, Except.pure,
          reduceCtorEq, and_false, exists_false, or_false] at hput ⊢
        exact hput
      exact run_bind_of_error (run_panicking_bind_of_error hinput t)

/-- A call that returned made an attempt that issued a put. -/
theorem exists_attempt_of_run {stored : Option StoredItem} {visit : Invocation} {n : UInt64}
    {t' : σ}
    (hstored : db.items t name = stored.map (StoredItem.attributes ciborium name))
    (hfits : ∀ item ∈ stored, item.recent.length < 2 ^ 64)
    (hrun : db.call ciborium tableName name visit t = (.ok n, t')) :
    ∃ request, visit.attempt stored = .ok request ∧ n = request.item.count ∧
      db.items t' =
        Function.update (db.items t) name (some (request.item.attributes ciborium name)) := by
  cases hattempt : visit.attempt stored with
  | error panic =>
      rw [run_maybeIncrementVisitors_of_panic hstored hfits hattempt] at hrun
      cases hrun
  | ok request =>
      obtain ⟨after, hcall, hitems⟩ : ∃ after, db.call ciborium tableName name visit t =
          (.ok request.item.count, after) ∧ _ :=
        run_maybeIncrementVisitors hstored hfits hattempt
      rw [hcall] at hrun
      cases hrun
      exact ⟨request, rfl, rfl, hitems⟩

/-- On a crowded list both calls count the visitor. -/
theorem call_twice_of_crowded {item : StoredItem} {tag : UInt32} {now : ℤ}
    (hstored : db.items t name = some (item.attributes ciborium name))
    (hcrowded : Crowded (some item) tag now) : ∃ t' t'',
      db.call ciborium tableName name ⟨⟨tag, now⟩, now⟩ t = (.ok (item.count + 1), t') ∧
      db.call ciborium tableName name ⟨⟨tag, now⟩, now⟩ t' = (.ok (item.count + 1 + 1), t'') := by
  have hfull : item.recent.length = maxRecentVisitors := hcrowded.1
  have hrep : Representable now := by
    obtain ⟨e, he⟩ := List.exists_mem_of_length_pos
      (show 0 < item.recent.length by rw [hfull, maxRecentVisitors_eq]; norm_num)
    rw [← (hcrowded.2 e he).1]
    exact representable_time e
  have hcall : ∀ count t, db.items t name =
        (some (StoredItem.mk count item.value)).map (StoredItem.attributes ciborium name) →
      ∃ t', db.call ciborium tableName name ⟨⟨tag, now⟩, now⟩ t = (.ok (count + 1), t') ∧
        db.items t' = Function.update (db.items t) name
          (some (StoredItem.attributes ciborium name ⟨count + 1, item.value⟩)) := by
    intro count t hstored
    have hfits : ∀ found ∈ some (StoredItem.mk count item.value), found.recent.length < 2 ^ 64 := by
      rintro _ ⟨⟩
      show item.recent.length < 2 ^ 64
      rw [hfull, maxRecentVisitors_eq]
      norm_num
    -- the cut takes back what the push has added
    have htied := @attempt_of_tied ⟨count, item.value⟩ tag now hrep hcrowded.2
    rw [show maxRecentVisitors = (StoredItem.mk count item.value).recent.length from hfull.symm,
      List.take_left] at htied
    exact run_maybeIncrementVisitors hstored hfits htied
  obtain ⟨t', hfirst, hitems⟩ := hcall item.count t hstored
  obtain ⟨t'', hsecond, -⟩ := hcall (item.count + 1) t' (by
    rw [hitems, Function.update_self]
    rfl)
  exact ⟨t', t'', hfirst, hsecond⟩

end Call

/-- **A second call repeats the first one**, unless the list is crowded.  On every
item that calls have written from a table without it, a call that returns `n`
leaves its visitor on the list, and the same call once more returns `n` and
leaves the table as it is, exactly when the list was not full of other visitors
all seen at `now`. -/
theorem revisit_idempotent_iff {σ ι : Type} (db : DynamoTable σ) (ciborium : Ciborium)
    (tableName name : String) [DecidableEq ι] {sys : System ι} (hnone : sys.initial = none)
    {trace : List (Event ι)} {s : State ι} (run : Run (Step sys) sys.start trace s) {t : σ}
    (hstored : db.items t name = (sys.current s.versions).map (StoredItem.attributes ciborium name))
    (tag : UInt32) {now : ℤ} (hle : ∀ e ∈ entriesOf (sys.current s.versions), e.time ≤ now) :
    (∀ n t', db.call ciborium tableName name ⟨⟨tag, now⟩, now⟩ t = (.ok n, t') →
      (∃ after, db.items t' name = some (StoredItem.attributes ciborium name after) ∧
        Visitor.stored ⟨tag, now⟩ ∈ after.recent) ∧
      ∃ t'', db.call ciborium tableName name ⟨⟨tag, now⟩, now⟩ t' = (.ok n, t'') ∧
        db.items t'' = db.items t') ↔
      ¬ Crowded (sys.current s.versions) tag now := by
  have htidy : ∀ item ∈ sys.current s.versions, Tidy item := fun item hitem =>
    (Coherent.run run).lineage.tidy (by simp [hnone]) item (System.mem_items_of_current hitem)
  constructor
  · intro hidempotent hcrowded
    cases hcurrent : sys.current s.versions with
    | none =>
        rw [hcurrent] at hcrowded
        have hempty : 0 = maxRecentVisitors := hcrowded.1
        simp [maxRecentVisitors_eq] at hempty
    | some item =>
        rw [hcurrent] at hcrowded hstored
        obtain ⟨t', t'', hfirst, hsecond⟩ : ∃ t' t'',
            db.call ciborium tableName name ⟨⟨tag, now⟩, now⟩ t = _ ∧ _ = (_, t'') :=
          call_twice_of_crowded hstored hcrowded
        obtain ⟨-, again, hagain, -⟩ := hidempotent _ _ hfirst
        have hsame := congrArg Prod.fst (hsecond.symm.trans hagain)
        simp at hsame
  · intro hcrowded n t' hfirst
    obtain ⟨request, hattempt, rfl, hitems⟩ :=
      exists_attempt_of_run hstored (fun item hitem => (htidy item hitem).length_lt) hfirst
    obtain ⟨hmem, hagain⟩ := attempt_again htidy hle hcrowded hattempt
    have hafter : db.items t' name = some (request.item.attributes ciborium name) := by
      rw [hitems, Function.update_self]
    refine ⟨⟨request.item, hafter, hmem⟩, ?_⟩
    have hwritten : ∀ item ∈ some request.item, item.recent.length < 2 ^ 64 := by
      rintro _ ⟨⟩
      exact (attempt_tidy htidy hattempt).length_lt
    have hstored' :
        db.items t' name = (some request.item).map (StoredItem.attributes ciborium name) :=
      hafter
    obtain ⟨t'', hsecond, hsame⟩ : ∃ t'', db.call ciborium tableName name ⟨⟨tag, now⟩, now⟩ t' =
        (.ok request.item.count, t'') ∧ db.items t'' =
          Function.update (db.items t') name (some (request.item.attributes ciborium name)) :=
      @run_maybeIncrementVisitors _ _ _ _ _ _ _ _ ⟨some request.item.count, request.item⟩ hstored'
        hwritten hagain
    refine ⟨t'', hsecond, ?_⟩
    rw [hsame, ← hafter, Function.update_eq_self]

/-- One visit, which creates the item. -/
def oneVisit : System (Fin 1) where
  calls _ := ⟨⟨7, 1_690_000_100_000_000_000⟩, 1_690_000_100_000_000_000⟩
  initial := none

/-- A new visitor is counted once by two calls. -/
theorem revisit_idempotent_iff_newVisitor : ∃ t t' t'' : String → Option Item,
    DynamoTable.reference.call Ciborium.reference "table" "default"
      ⟨⟨8, 1_690_000_101_500_000_000⟩, 1_690_000_101_500_000_000⟩ t = (.ok 2, t') ∧
    DynamoTable.reference.call Ciborium.reference "table" "default"
      ⟨⟨8, 1_690_000_101_500_000_000⟩, 1_690_000_101_500_000_000⟩ t' = (.ok 2, t'') ∧ t'' = t' := by
  have run : Run (Step oneVisit) oneVisit.start
      [.put 0 ⟨none, ⟨1, ⟨[⟨7, 100⟩]⟩⟩⟩ true, .get 0 none] _ :=
    run_of_exec (fun _ _ _ => step_sound) rfl
  obtain ⟨t', hfirst, -⟩ := @run_maybeIncrementVisitors _ DynamoTable.reference Ciborium.reference
    "table" "default"
    (fun _ => some (StoredItem.attributes Ciborium.reference "default" ⟨1, ⟨[⟨7, 100⟩]⟩⟩))
    (some ⟨1, ⟨[⟨7, 100⟩]⟩⟩) ⟨⟨8, 1_690_000_101_500_000_000⟩, 1_690_000_101_500_000_000⟩
    ⟨some 1, ⟨2, ⟨[⟨7, 100⟩, ⟨8, 101⟩]⟩⟩⟩ rfl (by decide) (by decide)
  have hcrowded : ¬ Crowded (some ⟨1, ⟨[⟨7, 100⟩]⟩⟩) 8 1_690_000_101_500_000_000 := by decide
  obtain ⟨-, t'', hsecond, hsame⟩ := (revisit_idempotent_iff DynamoTable.reference
    Ciborium.reference "table" "default" rfl run rfl 8 (by decide)).mpr hcrowded _ _ hfirst
  exact ⟨_, t', t'', hfirst, hsecond, hsame⟩

/-! ### A crowded list -/

/-- Visitors that all come at one instant. -/
def crowd : System ℕ where
  calls i := ⟨⟨UInt32.ofNat i, 1_690_000_100_000_000_000⟩, 1_690_000_100_000_000_000⟩
  initial := none

/-- The item after the first visitors of the crowd. -/
def crowdItem : ℕ → Option StoredItem
  | 0 => none
  | k + 1 => some ⟨UInt64.ofNat (k + 1), ⟨(List.range (k + 1)).map fun i => ⟨UInt32.ofNat i, 100⟩⟩⟩

theorem crowd_time (tag : UInt32) :
    StoredVisitor.time ⟨tag, 100⟩ = 1_690_000_100_000_000_000 := by
  rw [StoredVisitor.time_eq, show (100 : UInt32).toNat = 100 from rfl]
  norm_num

/-- The entries of the first `k` visitors are of this instant and not of the next one. -/
theorem crowd_tied {k : ℕ} (hk : k ≤ maxRecentVisitors) :
    ∀ e ∈ (List.range k).map fun i => (⟨UInt32.ofNat i, 100⟩ : StoredVisitor),
      e.time = 1_690_000_100_000_000_000 ∧ e.tag ≠ UInt32.ofNat k := by
  rw [maxRecentVisitors_eq] at hk
  intro e he
  obtain ⟨i, hi, rfl⟩ := List.mem_map.mp he
  have hlt := List.mem_range.mp hi
  refine ⟨crowd_time _, fun htag => ?_⟩
  have hnat := congrArg UInt32.toNat htag
  rw [UInt32.toNat_ofNat_of_lt' (by simp only [UInt32.size]; omega),
    UInt32.toNat_ofNat_of_lt' (by simp only [UInt32.size]; omega)] at hnat
  omega

/-- One more visitor of the crowd is put on the list. -/
theorem crowd_attempt {k : ℕ} (hk : k < maxRecentVisitors) : ∃ request,
    (crowd.calls k).attempt (crowdItem k) = .ok request ∧ request.holds (crowdItem k) = true ∧
      crowdItem (k + 1) = some request.item := by
  cases k with
  | zero => exact ⟨⟨none, ⟨1, ⟨[⟨0, 100⟩]⟩⟩⟩, by decide, rfl, rfl⟩
  | succ k =>
      have htied := @attempt_of_tied ⟨UInt64.ofNat (k + 1),
        ⟨(List.range (k + 1)).map fun i => ⟨UInt32.ofNat i, 100⟩⟩⟩ (UInt32.ofNat (k + 1))
        1_690_000_100_000_000_000 (by decide) (crowd_tied hk.le)
      refine ⟨_, htied, by simp [crowdItem], ?_⟩
      rw [crowdItem, List.range_succ, List.map_append, List.take_of_length_le (by simpa using hk),
        UInt64.ofNat_add]
      rfl

/-- An invocation that is alone gets the item and puts what its attempt makes of it. -/
theorem exists_run_put {ι : Type} [DecidableEq ι] {sys : System ι} {s : State ι} {i : ι} {n : ℕ}
    {request : PutRequest} (hphase : s.phase i = .get n)
    (hattempt : (sys.calls i).attempt (sys.current s.versions) = .ok request)
    (hholds : request.holds (sys.current s.versions) = true) :
    ∃ (trace : List (Event ι)) (s' : State ι), Run (Step sys) s trace s' ∧
      s'.versions = ⟨i, request⟩ :: s.versions ∧ ∀ j, j ≠ i → s'.phase j = s.phase j := by
  have hserves : sys.Serves s.versions (sys.current s.versions) := by
    cases hcurrent : sys.current s.versions with
    | none => exact Or.inl rfl
    | some item => exact Or.inr ⟨item, System.mem_items_of_current hcurrent, rfl⟩
  have hafter : afterGet (sys.calls i) n (sys.current s.versions) =
      .put n (sys.current s.versions) request [] := by
    rw [afterGet, hattempt]
  have hget := Step.get hphase hserves
  rw [hafter] at hget
  generalize hmid : (s.send i (.put n (sys.current s.versions) request [])).goto i
    (.put n (sys.current s.versions) request []) = mid at hget
  have hwait : mid.phase i = .put n (sys.current s.versions) request [] := by
    rw [← hmid, State.goto_phase_self]
  have hversions : mid.versions = s.versions := by
    rw [← hmid, State.goto_versions, State.send_versions]
  have hput := Step.put hwait (show true = request.holds (sys.current mid.versions) by
    rw [hversions, hholds])
  refine ⟨_, _, .cons (.cons .nil hget) hput, ?_, fun j hj => ?_⟩
  · rw [State.goto_versions, State.deliver_versions_true, hversions]
  · exact (hput.phase_eq_of_ne hj).trans (hget.phase_eq_of_ne hj)

/-- The crowd comes one by one. -/
theorem crowd_run : ∀ k ≤ maxRecentVisitors, ∃ (trace : List (Event ℕ)) (s : State ℕ),
    Run (Step crowd) crowd.start trace s ∧ crowd.current s.versions = crowdItem k ∧
      ∀ i, k ≤ i → s.phase i = .get 0 := by
  intro k
  induction k with
  | zero => exact fun _ => ⟨[], crowd.start, .nil, rfl, fun _ _ => rfl⟩
  | succ k ih =>
      intro hk
      obtain ⟨trace, s, run, hcurrent, hphase⟩ := ih (by omega)
      obtain ⟨request, hattempt, hholds, hnext⟩ := crowd_attempt hk
      rw [← hcurrent] at hattempt hholds
      obtain ⟨later, s', hlater, hversions, hothers⟩ :=
        exists_run_put (hphase k le_rfl) hattempt hholds
      refine ⟨_, s', run.append hlater, ?_, fun i hi => ?_⟩
      · rw [hversions, System.current_cons, hnext]
      · rw [hothers i (by omega), hphase i (by omega)]

/-- The first visitors of the crowd fill the list. -/
theorem crowd_crowded {k : ℕ} (hk : k + 1 = maxRecentVisitors) :
    Crowded (crowdItem (k + 1)) (UInt32.ofNat (k + 1)) 1_690_000_100_000_000_000 := by
  refine ⟨?_, crowd_tied hk.le⟩
  show (List.map _ (List.range (k + 1))).length = _
  rw [List.length_map, List.length_range, hk]

/-- **A crowded list counts a visitor twice.**  As many visitors as the list holds
come at one instant; the next one at that instant is answered with `26599`, and
with `26600` when it calls again. -/
theorem crowded_visit_counted_twice : ∃ (trace : List (Event ℕ)) (s : State ℕ)
    (t t' t'' : String → Option Item), Run (Step crowd) crowd.start trace s ∧
      t "default" =
        (crowd.current s.versions).map (StoredItem.attributes Ciborium.reference "default") ∧
      (∀ e ∈ entriesOf (crowd.current s.versions), e.time ≤ 1_690_000_100_000_000_000) ∧
      DynamoTable.reference.call Ciborium.reference "table" "default"
        ⟨⟨26598, 1_690_000_100_000_000_000⟩, 1_690_000_100_000_000_000⟩ t = (.ok 26599, t') ∧
      DynamoTable.reference.call Ciborium.reference "table" "default"
        ⟨⟨26598, 1_690_000_100_000_000_000⟩, 1_690_000_100_000_000_000⟩ t' = (.ok 26600, t'') := by
  obtain ⟨trace, s, run, hcurrent, -⟩ := crowd_run (26597 + 1) le_rfl
  have hcrowded := crowd_crowded maxRecentVisitors_eq.symm
  obtain ⟨t', t'', hfirst, hsecond⟩ := @call_twice_of_crowded _ DynamoTable.reference
    Ciborium.reference "table" "default"
    (fun _ => (crowdItem (26597 + 1)).map (StoredItem.attributes Ciborium.reference "default"))
    _ _ _ rfl hcrowded
  refine ⟨trace, s, _, t', t'', run, congrArg _ hcurrent.symm, ?_, hfirst, hsecond⟩
  rw [hcurrent]
  exact fun e he => (hcrowded.2 e he).1.le

end VisitorCounter

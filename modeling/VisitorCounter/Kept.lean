import VisitorCounter.Counting
import VisitorCounter.LostUpdate
import VisitorCounter.Revisit

/-!
# Counted visits are kept

A refresh of an entry may be overwritten, because it leaves the count alone.  A
counted visit is safe: its put changes the count, so that whatever is put later was
prepared from its item or a later one.  Its entry stays on the list while it is
recent and no list is full, and meanwhile the visitor is not counted again.  Stale
gets and second deliveries change nothing about this.

## Main Definitions

* `NeverFull`: no list that was put has as many visitors as fit
* `Kept`: the items from a counted put on, against the earlier ones

## Main Results

* `Kept.put`: a put keeps the counted visit
* `Lineage.kept`: the items after a counted put
* `counted_visits_kept`: counted visits of the service are kept, and not counted again
-/

namespace VisitorCounter

open Runs Programs RecencyList

/-! ### What one put keeps -/

section Put

variable {inv : Invocation} {item : StoredItem} {request : PutRequest}

/-- An attempt puts something only when no loaded entry is later than its `now`. -/
theorem le_now_of_attempt (h : inv.attempt (some item) = .ok request) :
    ∀ e ∈ item.recent, e.time ≤ inv.now := by
  intro e he
  have hmem : Visitor.ofStored e ∈ item.recent.map Visitor.ofStored := List.mem_map_of_mem he
  rcases attempt_some_cases h with hrefresh | hpush
  · rcases mem_updateFirst_of_mem (f := fun v => { v with lastSeen := inv.now }) hmem with
      hkept | ⟨-, hfind⟩
    · exact hrefresh.written.not_after _ hkept
    · obtain ⟨found, hfound, hle, -⟩ := hrefresh.known
      obtain rfl := Option.some.inj (hfound.symm.trans hfind)
      exact hle
  · exact hpush.written.not_after _ (List.mem_append_left _ hmem)

/-- A list that is put and not full has not been culled. -/
theorem unculled_of_length_lt (h : inv.attempt (some item) = .ok request)
    (hlength : request.item.recent.length < maxRecentVisitors) : inv.unculled item = true := by
  have hcull : ∀ memory initialCount, Written inv initialCount memory request →
      (recentOnly inv.now memory).length ≤ maxRecentVisitors := by
    intro memory initialCount hwritten
    by_contra hlong
    rw [hwritten.recent, List.length_map, length_cull_of_lt (not_le.mp hlong)] at hlength
    exact lt_irrefl _ hlength
  unfold Invocation.unculled
  rcases attempt_some_cases h with hrefresh | hpush
  · rw [hrefresh.retained]
    exact decide_eq_true (hcull _ _ hrefresh.written)
  · rw [hpush.retained]
    exact decide_eq_true (hcull _ _ hpush.written)

/-- **A put keeps a recent visit that it has loaded.** -/
theorem hasVisit_of_loaded (h : inv.attempt (some item) = .ok request)
    (hlength : request.item.recent.length < maxRecentVisitors) {tag : UInt32} {t : ℤ}
    (hrecent : Recent inv.now (floorToSeconds t)) (hvisit : item.HasVisit tag t) :
    request.item.HasVisit tag t := by
  obtain ⟨e, he, rfl, htime⟩ := hvisit
  have hentry : Recent inv.now e.time := by
    unfold Recent at hrecent ⊢
    omega
  obtain ⟨w, hw, hwtag, hwtime | hwtime⟩ :=
    exists_loaded_mem h (unculled_of_length_lt h hlength) he hentry
  · exact ⟨w, hw, hwtag, by rwa [hwtime]⟩
  · refine ⟨w, hw, hwtag, htime.trans ?_⟩
    rw [hwtime, ← floorToSeconds_time e]
    exact floorToSeconds_mono (le_now_of_attempt h e he)

/-- A visitor with a recent entry is not counted. -/
theorem counts_eq_false_of_hasVisit (hitem : (item.recent.map StoredVisitor.tag).Nodup)
    (h : inv.attempt (some item) = .ok request) {t : ℤ}
    (hrecent : Recent inv.now (floorToSeconds t)) (hvisit : item.HasVisit inv.visitor.tag t) :
    request.counts = false := by
  rcases attempt_some_cases h with hrefresh | hpush
  · exact hrefresh.counts_eq_false
  · obtain ⟨e, he, htag, htime⟩ := hvisit
    refine absurd ?_ (hpush.stale hitem he htag)
    unfold Recent at hrecent ⊢
    omega

end Put

/-! ### What a history keeps -/

variable {ι : Type} {sys : System ι} {v : Version ι} {later older versions : List (Version ι)}

/-- No list that was put has as many visitors as fit. -/
def NeverFull (versions : List (Version ι)) : Prop :=
  ∀ v ∈ versions, v.request.item.recent.length < maxRecentVisitors

theorem ItemsBelow.of_cons (h : ItemsBelow sys (v :: versions)) : ItemsBelow sys versions :=
  fun item hitem => h item (List.mem_cons_of_mem _ hitem)

theorem ItemsBelow.current (h : ItemsBelow sys versions) (item : StoredItem)
    (hcur : sys.current versions = some item) : item.count.toNat < 2 ^ 64 - 1 :=
  h item (System.mem_items_of_current hcur)

/-- No count of a history is beyond the last one. -/
theorem Lineage.count_le_storedCount (h : Lineage sys versions) (hbelow : ItemsBelow sys versions) :
    ∀ item ∈ sys.items versions, item.count.toNat ≤ sys.storedCount versions := by
  induction h with
  | nil =>
      intro item hitem
      rw [System.items_nil, Option.mem_toList] at hitem
      rw [System.storedCount, System.current_nil, Option.mem_def.mp hitem]
  | @put versions v loaded hlineage hprep hholds ih =>
      have hearlier := hbelow.of_cons
      have hstored := hprep.storedCount_cons hholds hearlier.current
      refine List.forall_mem_cons.mpr ⟨(System.storedCount_cons ..).ge, fun item hitem => ?_⟩
      have hle := ih hearlier item hitem
      omega

/-- The items from a counted put on have its visit; the earlier ones have smaller counts,
so that nothing that was prepared from them is applied any more. -/
structure Kept (sys : System ι) (v : Version ι) (later older : List (Version ι)) : Prop where
  before : ∀ item ∈ sys.items older, item.count.toNat < v.request.item.count.toNat
  count_le : ∀ w ∈ later ++ [v], v.request.item.count.toNat ≤ w.request.item.count.toNat
  hasVisit : ∀ w ∈ later ++ [v],
    w.request.item.HasVisit (sys.visitorOf v).tag (sys.visitorOf v).lastSeen
  /-- The visitor is not counted again. -/
  uncounted : ∀ w ∈ later, (sys.visitorOf w).tag = (sys.visitorOf v).tag →
    w.request.counts = false

/-- A counted put writes its visit. -/
theorem Prepared.hasVisit {loaded : Option StoredItem} (h : Prepared sys older v loaded)
    (hcounts : v.request.counts = true)
    (hlength : v.request.item.recent.length < maxRecentVisitors)
    (hrecent : Recent (sys.calls v.author).now (sys.visitorOf v).lastSeen) :
    v.request.item.HasVisit (sys.visitorOf v).tag (sys.visitorOf v).lastSeen := by
  rcases h.counts_eq_true_iff.mp hcounts with rfl | ⟨item, rfl, hpush⟩
  · obtain ⟨hrep, hrequest⟩ := attempt_none_eq_ok_iff.mp h.attempt
    rw [hrequest]
    exact ⟨_, List.mem_cons_self, rfl, (Visitor.stored_time hrep).ge⟩
  · have hfits := hpush.length_retained_le (unculled_of_length_lt h.attempt hlength)
    obtain ⟨w, hw, hwtag, hwtime⟩ := hpush.exists_own_mem hfits hrecent
    exact ⟨w, hw, hwtag, hwtime.ge⟩

/-- A counted put raises the count above all earlier ones. -/
theorem Kept.nil {loaded : Option StoredItem} (hlineage : Lineage sys older)
    (hbelow : ItemsBelow sys older) (hprep : Prepared sys older v loaded)
    (hholds : v.request.holds (sys.current older) = true) (hcounts : v.request.counts = true)
    (hlength : v.request.item.recent.length < maxRecentVisitors)
    (hrecent : Recent (sys.calls v.author).now (sys.visitorOf v).lastSeen) :
    Kept sys v [] older where
  before item hitem := by
    have hle := hlineage.count_le_storedCount hbelow item hitem
    have hstored := hprep.storedCount_cons hholds hbelow.current
    rw [System.storedCount_cons, hcounts] at hstored
    simp only [if_true] at hstored
    omega
  count_le w hw := by
    rw [List.mem_singleton.mp hw]
  hasVisit w hw := by
    rw [List.mem_singleton.mp hw]
    exact hprep.hasVisit hcounts hlength hrecent
  uncounted w hw := absurd hw List.not_mem_nil

/-- The current item is the one of the last put. -/
theorem exists_current (sys : System ι) (later : List (Version ι)) (v : Version ι)
    (older : List (Version ι)) :
    ∃ w ∈ later ++ [v], sys.current (later ++ v :: older) = some w.request.item := by
  cases later with
  | nil => exact ⟨v, List.mem_singleton_self v, rfl⟩
  | cons w later => exact ⟨w, List.mem_cons_self, rfl⟩

/-- A put whose condition holds after a counted put was prepared from its item or a later one. -/
theorem Kept.exists_loaded {w : Version ι} {loaded : Option StoredItem}
    (h : Kept sys v later older) (hprep : Prepared sys (later ++ v :: older) w loaded)
    (hholds : w.request.holds (sys.current (later ++ v :: older)) = true) :
    ∃ u ∈ later ++ [v], loaded = some u.request.item := by
  obtain ⟨last, hlast, hcurrent⟩ := exists_current sys later v older
  rw [hcurrent] at hholds
  rcases hprep.cases with ⟨-, -, hrequest⟩ | ⟨item, hitem, rfl, hput⟩
  · rw [hrequest] at hholds
    cases hholds
  · have hcount : last.request.item.count = item.count := by
      obtain ⟨found, hfound, hcount⟩ : ∃ found, some last.request.item = some found ∧
          found.count = item.count :=
        hput.elim (fun h => h.written.holds_iff.mp hholds) fun h => h.written.holds_iff.mp hholds
      rwa [← Option.some.inj hfound] at hcount
    have hle := h.count_le last hlast
    rw [System.items, List.append_cons, List.map_append,
      List.append_assoc] at hitem
    rcases List.mem_append.mp hitem with hnew | hold
    · obtain ⟨u, hu, rfl⟩ := List.mem_map.mp hnew
      exact ⟨u, hu, rfl⟩
    · have hlt := h.before item hold
      rw [hcount] at hle
      omega

/-- **A put keeps the counted visit.** -/
theorem Kept.put {w : Version ι} {loaded : Option StoredItem} (h : Kept sys v later older)
    (htidy : ∀ item ∈ sys.initial, Tidy item) (hlineage : Lineage sys (later ++ v :: older))
    (hbelow : ItemsBelow sys (later ++ v :: older))
    (hprep : Prepared sys (later ++ v :: older) w loaded)
    (hholds : w.request.holds (sys.current (later ++ v :: older)) = true)
    (hlength : w.request.item.recent.length < maxRecentVisitors)
    (hrecent : Recent (sys.calls w.author).now (floorToSeconds (sys.visitorOf v).lastSeen)) :
    Kept sys v (w :: later) older := by
  obtain ⟨u, hu, rfl⟩ := h.exists_loaded hprep hholds
  have hmem : u ∈ later ++ v :: older := by
    rcases List.mem_append.mp hu with hlater | hself
    · exact List.mem_append_left _ hlater
    · exact List.mem_append_right _ (List.mem_singleton.mp hself ▸ List.mem_cons_self)
  have hvisit := h.hasVisit u hu
  refine ⟨h.before, List.forall_mem_cons.mpr ⟨?_, h.count_le⟩, List.forall_mem_cons.mpr ⟨?_,
    h.hasVisit⟩, List.forall_mem_cons.mpr ⟨fun htag => ?_, h.uncounted⟩⟩
  · have hle := h.count_le u hu
    rcases attempt_some_cases hprep.attempt with hrefresh | hpush
    · rwa [hrefresh.count]
    · rw [hpush.count, toNat_add_one (hbelow.countsBelow u hmem)]
      omega
  · exact hasVisit_of_loaded hprep.attempt hlength hrecent hvisit
  · have hitem := hlineage.tidy htidy u.request.item
      (List.mem_append_left _ (List.mem_map_of_mem hmem))
    rw [← htag] at hvisit
    exact counts_eq_false_of_hasVisit hitem.tags_nodup hprep.attempt hrecent hvisit

/-- **The items after a counted put**, while its visit is recent to those who put. -/
theorem Lineage.kept (h : Lineage sys (later ++ v :: older))
    (htidy : ∀ item ∈ sys.initial, Tidy item)
    (hbelow : ItemsBelow sys (later ++ v :: older)) (hfull : NeverFull (later ++ v :: older))
    (hcounts : v.request.counts = true)
    (hrecent : Recent (sys.calls v.author).now (sys.visitorOf v).lastSeen)
    (hlater : ∀ w ∈ later,
      Recent (sys.calls w.author).now (floorToSeconds (sys.visitorOf v).lastSeen)) :
    Kept sys v later older := by
  induction later with
  | nil =>
      cases h with
      | put hlineage hprep hholds =>
          exact Kept.nil hlineage hbelow.of_cons hprep hholds hcounts (hfull v List.mem_cons_self)
            hrecent
  | cons w later ih =>
      rw [List.cons_append] at h hbelow hfull
      cases h with
      | put hlineage hprep hholds =>
          have hkept := ih hlineage hbelow.of_cons
            (fun w hw => hfull w (List.mem_cons_of_mem _ hw))
            fun w hw => hlater w (List.mem_cons_of_mem _ hw)
          exact hkept.put htidy hlineage hbelow.of_cons hprep hholds (hfull w List.mem_cons_self)
            (hlater w List.mem_cons_self)

/-! ### What the service keeps -/

section Service

variable [DecidableEq ι] {d : Deployment ι} {clock : ℤ} {trace : List (ServiceEvent ι)}
  {s : Service ι} {name : String}

/-- No list that was put under a key has as many visitors as fit. -/
def Deployment.NeverFull (d : Deployment ι) (log : List (SentPut ι)) (name : String) : Prop :=
  ∀ put ∈ underKey name log, ∀ entry,
    CountEntry.ofAttributes d.ciborium put.input.item = .ok entry →
      entry.recentVisitors.length < maxRecentVisitors

omit [DecidableEq ι] in
theorem View.neverFull {a : Handlers ι} (h : View d name sys s a) (hstocked : Stocked d name sys)
    (hlineage : Lineage sys a.table.versions) (hfull : d.NeverFull s.log name) :
    NeverFull a.table.versions := by
  intro v hv
  have hput : v.sentPut d name ∈ underKey name s.log := by
    rw [h.log]
    exact List.mem_map_of_mem hv
  have hitem : v.request.item ∈ sys.items a.table.versions :=
    List.mem_append_left _ (List.mem_map_of_mem hv)
  have hread : CountEntry.ofAttributes d.ciborium (v.sentPut d name).input.item =
      .ok (CountEntry.ofItem v.request.item) := by
    rw [Version.sentPut, PutRequest.input_item]
    exact ofAttributes_attributes _ _ (hlineage.length_recent_lt hstocked.fits _ hitem)
  simpa using hfull _ hput _ hread

/-- **Counted visits are kept, and not counted again.**  Whatever the table does with
gets, puts and replies, for a counter whose first item is absent or tidy, and with fewer
puts than the count has room for: a put that was counted leaves its visitor on the list of
the counter, at the second of the visit or a later one, for as long as the clock is less
than two hours after that second and no list that was put is full; and none of the puts
after it counts the visitor again. -/
theorem counted_visits_kept (run : Run (ServiceStep d) (d.start clock) trace s)
    {initial : Option StoredItem}
    (hitems : d.items name = initial.map (StoredItem.attributes d.ciborium name))
    (htidy : ∀ item ∈ initial, Tidy item) (hputs : countOf initial + s.log.length < 2 ^ 64 - 1)
    (hfull : d.NeverFull s.log name) {newer older : List (SentPut ι)} {put : SentPut ι}
    (hsplit : underKey name s.log = newer ++ put :: older) (hcounts : put.counts = true)
    {seen : ℤ} (hseen : (s.reads put.author).head? = some seen)
    (hclock : s.clock < floorToSeconds seen + 7_200_000_000_000) :
    (∃ entry visitor, d.entry s.log name = some (.ok entry) ∧ visitor ∈ entry.recentVisitors ∧
        visitor.tag = d.tag put.author ∧ floorToSeconds seen ≤ visitor.lastSeen) ∧
      ∀ put' ∈ newer, d.tag put'.author = d.tag put.author → put'.counts = false := by
  have hstocked : Stocked d name (s.foretell d.tag initial) :=
    ⟨hitems, fun item hitem => (htidy item hitem).length_lt⟩
  obtain ⟨trace', a, hrun, -, hview⟩ :=
    exists_view_of_run hstocked run (foretold_foretell run (fun _ _ => rfl) initial)
  have hlineage := lineage_table hrun
  have hbelow := hview.itemsBelow hlineage hputs
  have hnever := hview.neverFull hstocked hlineage hfull
  -- The put and the puts around it are versions of the item.
  have hlog := hview.log.symm.trans hsplit
  obtain ⟨later, rest, hversions, rfl, hrest⟩ := List.map_eq_append_iff.mp hlog
  obtain ⟨v, earlier, rfl, rfl, rfl⟩ := List.map_eq_cons_iff.mp hrest
  have hlast : ((s.foretell d.tag initial).visitorOf v).lastSeen = seen := by
    show (s.reads v.author).headD s.clock = seen
    rw [List.headD_eq_head?_getD, show (s.reads v.author).head? = some seen from hseen]
    rfl
  -- Nobody has read a later time than the clock shows.
  have hrecent : ∀ i, Recent ((s.foretell d.tag initial).calls i).now
      (floorToSeconds ((s.foretell d.tag initial).visitorOf v).lastSeen) := by
    intro i
    have hnow := (foretell_times run d.tag initial i).2.2
    rw [hlast]
    unfold Recent
    omega
  have hown : Recent ((s.foretell d.tag initial).calls v.author).now
      ((s.foretell d.tag initial).visitorOf v).lastSeen := by
    have hfloor := floorToSeconds_le ((s.foretell d.tag initial).visitorOf v).lastSeen
    have := hrecent v.author
    unfold Recent at this ⊢
    omega
  rw [hversions] at hlineage hbelow hnever
  have hkept := hlineage.kept htidy hbelow hnever ((sentPut_counts v).symm.trans hcounts) hown
    fun w _ => hrecent w.author
  constructor
  · obtain ⟨last, hmem, hcurrent⟩ := exists_current (s.foretell d.tag initial) later v earlier
    obtain ⟨e, he, htag, htime⟩ := hkept.hasVisit last hmem
    refine ⟨CountEntry.ofItem last.request.item, Visitor.ofStored e, ?_, List.mem_map_of_mem he,
      htag, hlast ▸ htime⟩
    rw [hview.entry_eq hstocked (hversions ▸ hlineage), hversions, hcurrent]
    rfl
  · intro put' hput' htag
    obtain ⟨w, hw, rfl⟩ := List.mem_map.mp hput'
    exact (sentPut_counts w).trans (hkept.uncounted w hw htag)

/-- The first of two visitors who race is on the list after the put of the second one. -/
theorem counted_visits_kept_twoRequests :
    ∃ s entry visitor,
      Run (ServiceStep twoRequests) (twoRequests.start 1690000100000000000) raceOfTwo s ∧
      twoRequests.entry s.log "default" = some (.ok entry) ∧ visitor ∈ entry.recentVisitors ∧
      visitor.tag = 603546820 := by
  obtain ⟨s, run, hclock, hlog, hreads⟩ := run_raceOfTwo
  have hrun := run.mono fun _ _ _ hstep => hstep.1
  have hfull : twoRequests.NeverFull s.log "default" := by
    intro put hput entry hentry
    obtain ⟨item, hitem, hlength⟩ : ∃ item : StoredItem,
        put.input.item = item.attributes Ciborium.reference "default" ∧ item.recent.length < 3 := by
      rw [hlog] at hput
      rcases List.mem_pair.mp (List.mem_of_mem_filter hput) with rfl | rfl
      · exact ⟨_, rfl, by decide⟩
      · exact ⟨_, rfl, by decide⟩
    rw [hitem, show twoRequests.ciborium = Ciborium.reference from rfl,
      ofAttributes_attributes _ _ (by omega)] at hentry
    obtain rfl := Except.ok.inj hentry
    rw [maxRecentVisitors_eq]
    simp only [CountEntry.ofItem_recentVisitors, List.length_map]
    omega
  have hsplit : underKey "default" s.log = putsOfTwo.take 1 ++ putsOfTwo[1] :: [] := by
    rw [hlog]
    rfl
  have hitems : twoRequests.items "default" =
      Option.map (StoredItem.attributes Ciborium.reference "default") none := rfl
  have hseen : (s.reads putsOfTwo[1].author).head? = some 1690000100000000000 := by
    rw [hreads]
    rfl
  obtain ⟨⟨entry, visitor, hentry, hvisitor, htag, -⟩, -⟩ :=
    counted_visits_kept hrun hitems (fun _ h => nomatch h) (by rw [hlog]; decide) hfull hsplit
      (by decide) hseen (by rw [hclock]; decide)
  exact ⟨s, entry, visitor, hrun, hentry, hvisitor, htag⟩

end Service

end VisitorCounter

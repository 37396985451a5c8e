import VisitorCounter.History

/-!
# The invariant of the stored item

Every version of the item that is ever written satisfies `WellFormed` at the
time of the invocation that wrote it.  The tags of the list in memory are not
always distinct: a visitor whose entry is stale is pushed a second time.  The
pruning drops the stale twin, because it uses the `now` and the comparison of
the lookup.

## Main Definitions

* `WellFormed`: distinct tags, bounded length, a count that covers the list, and
  entries within the window

## Main Results

* `attempt_none_wellFormed`, `attempt_some_wellFormed`: an attempt on nothing or
  on a well-formed item writes a well-formed one
* `Lineage.wellFormed`: every version of a history is well formed
* `Pushes.eq_of_tag`: an entry under the tag of a pushed visitor is the pushed one
-/

namespace VisitorCounter

open Runs RecencyList

/-- What holds of an item that was written at `now`. -/
structure WellFormed (now : ℤ) (item : StoredItem) : Prop where
  tags_nodup : (item.recent.map StoredVisitor.tag).Nodup
  length_le : item.recent.length ≤ maxRecentVisitors
  length_le_count : item.recent.length ≤ item.count.toNat
  count_pos : 1 ≤ item.count.toNat
  recent : ∀ e ∈ item.recent, Recent now e.time
  le_now : ∀ e ∈ item.recent, e.time ≤ now

/-- An invocation whose visitor was seen less than `RECENT_CUTOFF - 1 s` before
its `now`: what is stored of either time is still recent. -/
def Invocation.Prompt (inv : Invocation) : Prop :=
  inv.visitor.lastSeen ≤ inv.now ∧ inv.now < inv.visitor.lastSeen + 7_199_000_000_000

instance (inv : Invocation) : Decidable inv.Prompt := inferInstanceAs (Decidable (_ ∧ _))

theorem Invocation.Prompt.recent_floorToSeconds {inv : Invocation} (h : inv.Prompt) :
    Recent inv.now (floorToSeconds inv.visitor.lastSeen) := by
  have hfloor := lt_floorToSeconds_add inv.visitor.lastSeen
  unfold Invocation.Prompt at h
  unfold Recent
  omega

theorem recent_floorToSeconds_self (now : ℤ) : Recent now (floorToSeconds now) := by
  have hfloor := lt_floorToSeconds_add now
  unfold Recent
  omega

variable {inv : Invocation} {item : StoredItem} {request : PutRequest}

/-- The tags that a refresh writes are distinct when those of the item were. -/
theorem Refreshes.tags_nodup (h : Refreshes inv item request)
    (hitem : (item.recent.map StoredVisitor.tag).Nodup) :
    (request.item.recent.map StoredVisitor.tag).Nodup := by
  rw [h.written.map_tag]
  refine nodup_map_cull ((List.filter_sublist.map Visitor.tag).nodup ?_)
  rw [map_tag_refreshed, List.map_map]
  exact hitem

/-- An entry of the item under the tag of a pushed visitor was stale. -/
theorem Pushes.stale (h : Pushes inv item request)
    (hitem : (item.recent.map StoredVisitor.tag).Nodup) {e : StoredVisitor}
    (he : e ∈ item.recent) (htag : e.tag = inv.visitor.tag) : ¬ Recent inv.now e.time := by
  obtain ⟨found, hfind⟩ : ∃ found,
      (item.recent.map Visitor.ofStored).find? (isTag inv.visitor.tag) = some found := by
    rw [← Option.isSome_iff_exists, List.find?_isSome]
    exact ⟨_, List.mem_map_of_mem he, by simpa using htag⟩
  have hmem := List.mem_of_find?_eq_some hfind
  obtain ⟨s, hs, rfl⟩ := List.mem_map.mp hmem
  have hfound : s.tag = inv.visitor.tag := by simpa using List.find?_some hfind
  obtain rfl : e = s := List.inj_on_of_nodup_map hitem he hs (htag.trans hfound.symm)
  exact h.unknown _ hfind

/-- The tags that a push retains are distinct when those of the item were: the
stale entry of the visitor, if there is one, is pruned. -/
theorem Pushes.retained_tags_nodup (h : Pushes inv item request)
    (hitem : (item.recent.map StoredVisitor.tag).Nodup) :
    ((recentOnly inv.now (item.recent.map Visitor.ofStored ++ [inv.visitor])).map
      Visitor.tag).Nodup := by
  apply nodup_keys_append_singleton
  · rw [List.map_map]
    exact hitem
  · intro v hv htag
    obtain ⟨e, he, rfl⟩ := List.mem_map.mp hv
    exact decide_eq_false (h.stale hitem he htag)

/-- The tags that a push writes are distinct when those of the item were. -/
theorem Pushes.tags_nodup (h : Pushes inv item request)
    (hitem : (item.recent.map StoredVisitor.tag).Nodup) :
    (request.item.recent.map StoredVisitor.tag).Nodup := by
  rw [h.written.map_tag]
  exact nodup_map_cull (h.retained_tags_nodup hitem)

/-- An entry that a push writes under the visitor's tag is the pushed one. -/
theorem Pushes.eq_of_tag (h : Pushes inv item request)
    (hitem : (item.recent.map StoredVisitor.tag).Nodup) {e : StoredVisitor}
    (he : e ∈ request.item.recent) (htag : e.tag = inv.visitor.tag) :
    e.time = floorToSeconds inv.visitor.lastSeen := by
  rcases h.mem_recent he with ⟨hold, hrecent⟩ | ⟨-, htime⟩
  · exact absurd hrecent (h.stale hitem hold htag)
  · exact htime

/-- A creation writes a well-formed item. -/
theorem attempt_none_wellFormed (hprompt : inv.Prompt)
    (h : inv.attempt none = .ok request) : WellFormed inv.now request.item := by
  obtain ⟨hrep, rfl⟩ := attempt_none_eq_ok_iff.mp h
  have htime := Visitor.stored_time hrep
  refine ⟨by simp, by simp [maxRecentVisitors_eq], by simp, by simp, ?_, ?_⟩
  · intro e he
    obtain rfl := List.mem_singleton.mp he
    rw [htime]
    exact hprompt.recent_floorToSeconds
  · intro e he
    obtain rfl := List.mem_singleton.mp he
    rw [htime]
    exact (floorToSeconds_le _).trans hprompt.1

/-- **An update of a well-formed item writes a well-formed item**, at the writer's time. -/
theorem attempt_some_wellFormed {now : ℤ} (hitem : WellFormed now item)
    (hcount : item.count.toNat < 2 ^ 64 - 1) (hprompt : inv.Prompt)
    (h : inv.attempt (some item) = .ok request) : WellFormed inv.now request.item := by
  rcases attempt_some_cases h with hrefresh | hpush
  · have hlength : request.item.recent.length ≤ item.recent.length := by
      refine hrefresh.written.length_recent_le_memory.trans ?_
      rw [← List.length_map Visitor.tag, map_tag_refreshed]
      simp
    refine ⟨hrefresh.tags_nodup hitem.tags_nodup, hrefresh.written.length_recent_le, ?_, ?_, ?_,
      fun e he => hrefresh.written.le_now he⟩
    · rw [hrefresh.count]
      exact hlength.trans hitem.length_le_count
    · rw [hrefresh.count]
      exact hitem.count_pos
    · intro e he
      rcases hrefresh.mem_recent he with ⟨-, hrecent⟩ | ⟨-, htime⟩
      · exact hrecent
      · rw [htime]
        exact recent_floorToSeconds_self _
  · have hlength : request.item.recent.length ≤ item.recent.length + 1 := by
      simpa using hpush.written.length_recent_le_memory
    have hnext := toNat_add_one hcount
    refine ⟨hpush.tags_nodup hitem.tags_nodup, hpush.written.length_recent_le, ?_, ?_, ?_,
      fun e he => hpush.written.le_now he⟩
    · rw [hpush.count, hnext]
      have := hitem.length_le_count
      omega
    · rw [hpush.count, hnext]
      omega
    · intro e he
      rcases hpush.mem_recent he with ⟨-, hrecent⟩ | ⟨-, htime⟩
      · exact hrecent
      · rw [htime]
        exact hprompt.recent_floorToSeconds

variable {ι : Type} {sys : System ι}

/-- **Every version of a history is well formed** at the time of its writer. -/
theorem Lineage.wellFormed {versions : List (Version ι)} (h : Lineage sys versions)
    (hnone : sys.initial = none) (hprompt : ∀ i, (sys.calls i).Prompt)
    (hcount : ∀ v ∈ versions, v.request.item.count.toNat < 2 ^ 64 - 1) :
    ∀ v ∈ versions, WellFormed (sys.calls v.author).now v.request.item := by
  induction h with
  | nil => simp
  | @put versions w loaded hlineage hprep hholds ih =>
      have hearlier := ih fun v hv => hcount v (List.mem_cons_of_mem _ hv)
      refine List.forall_mem_cons.mpr ⟨?_, hearlier⟩
      rcases hprep.serves with rfl | ⟨item, hitem, rfl⟩
      · exact attempt_none_wellFormed (hprompt _) hprep.attempt
      · obtain ⟨v, hv, rfl⟩ : ∃ v ∈ versions, v.request.item = item := by
          simpa [System.items, hnone] using hitem
        exact attempt_some_wellFormed (hearlier v hv)
          (hcount v (List.mem_cons_of_mem _ hv)) (hprompt _) hprep.attempt

variable [DecidableEq ι]

/-- A put that found the visitor's first entry stale is a push. -/
theorem pushes_of_stale {found : StoredVisitor} (h : inv.attempt (some item) = .ok request)
    (hfind : item.recent.find? (fun e => e.tag == inv.visitor.tag) = some found)
    (hstale : ¬ Recent inv.now found.time) : Pushes inv item request := by
  rcases attempt_some_cases h with ⟨⟨known, hknown, -, hrecent⟩, -, -, -⟩ | hpush
  · have hmap : (item.recent.map Visitor.ofStored).find? (isTag inv.visitor.tag) =
        (item.recent.find? fun e => e.tag == inv.visitor.tag).map Visitor.ofStored :=
      List.find?_map
    rw [hmap, hfind] at hknown
    obtain rfl := Option.some.inj hknown
    exact absurd hrecent hstale
  · exact hpush

/-- **The representation invariant.**  From a table without the item, with counts
below `2 ^ 64 - 1` and prompt invocations, every version ever written is well
formed at its writer's time.  A put whose attempt found the visitor's first
entry stale pushes the visitor and does not write the stale twin. -/
theorem stored_item_invariant {sys : System ι} (hnone : sys.initial = none)
    (hprompt : ∀ i, (sys.calls i).Prompt) {trace : List (Event ι)} {s : State ι}
    (run : Run (Step sys) sys.start trace s)
    (hcount : ∀ v ∈ s.versions, v.request.item.count.toNat < 2 ^ 64 - 1) :
    (∀ v ∈ s.versions, WellFormed (sys.calls v.author).now v.request.item) ∧
      ∀ i attempt item request replies,
        s.phase i = .put attempt (some item) request replies →
        ∀ found, item.recent.find? (fun e => e.tag == (sys.calls i).visitor.tag) = some found →
          ¬ Recent (sys.calls i).now found.time →
            request.item.count = item.count + 1 ∧ found ∉ request.item.recent ∧
              ∀ e ∈ request.item.recent, e.tag = (sys.calls i).visitor.tag →
                e.time = floorToSeconds (sys.calls i).visitor.lastSeen := by
  have hcoherent := Coherent.run run
  have hversions := hcoherent.lineage.wellFormed hnone hprompt hcount
  refine ⟨hversions, ?_⟩
  intro i attempt item request replies hphase found hfind hstale
  have hprep := hcoherent.waiting i _ _ _ _ hphase
  obtain ⟨v, hv, rfl⟩ : ∃ v ∈ s.versions, v.request.item = item := by
    simpa [System.Serves, System.items, hnone] using hprep.serves
  have hnodup := (hversions v hv).tags_nodup
  have hpush : Pushes (sys.calls i) v.request.item request :=
    pushes_of_stale hprep.attempt hfind hstale
  have htag : found.tag = (sys.calls i).visitor.tag := by simpa using List.find?_some hfind
  refine ⟨hpush.count, fun hmem => ?_, fun e he => hpush.eq_of_tag hnodup he⟩
  -- Were the twin written, it would be the entry of the visit itself, and recent.
  have htime := hpush.eq_of_tag hnodup hmem htag
  rw [htime] at hstale
  exact hstale (hprompt i).recent_floorToSeconds

/-- Two visits under one tag, two hours apart. -/
def twoVisits : System (Fin 2) where
  calls i := ⟨⟨7, 1_690_000_100_000_000_000 + i * 7_200_000_000_000⟩,
    1_690_000_100_000_000_000 + i * 7_200_000_000_000⟩
  initial := none

/-- The second visit finds its entry stale and writes a list without the stale twin. -/
theorem stored_item_invariant_twoVisits :
    WellFormed 1_690_000_100_000_000_000 ⟨1, ⟨[⟨7, 100⟩]⟩⟩ ∧
      (⟨7, 100⟩ : StoredVisitor) ∉ [(⟨7, 7300⟩ : StoredVisitor)] := by
  have run : Run (Step twoVisits) twoVisits.start
      [.get 1 (some ⟨1, ⟨[⟨7, 100⟩]⟩⟩), .reply 0 true, .put 0 ⟨none, ⟨1, ⟨[⟨7, 100⟩]⟩⟩⟩ true,
        .get 0 none] _ :=
    run_of_exec (fun _ _ _ => step_sound) rfl
  obtain ⟨hversions, htwin⟩ := stored_item_invariant rfl (by decide) run (by decide)
  refine ⟨hversions ⟨0, ⟨none, ⟨1, ⟨[⟨7, 100⟩]⟩⟩⟩⟩ (by decide), ?_⟩
  exact (htwin 1 0 ⟨1, ⟨[⟨7, 100⟩]⟩⟩ ⟨some 1, ⟨2, ⟨[⟨7, 7300⟩]⟩⟩⟩ [] rfl ⟨7, 100⟩ rfl
    (by decide)).2.1

end VisitorCounter

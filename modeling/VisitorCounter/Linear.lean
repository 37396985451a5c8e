import VisitorCounter.Kept

/-!
# Responses in order

The responses of a counter are those of one sequential counter, in the order in which the
puts were applied, and that order never contradicts real time: who asks after another one
was answered is shown no smaller count, and a larger one if counted anew.  Stale gets do
not matter to this, since a put that was prepared from a stale item is refused, or was
prepared from one with the current count.

## Main Results

* `Lineage.count_add_le_of_append`: a later version has no smaller count
* `log_suffix_run`: the puts that were applied stay
* `responses_in_order`: real time and the responses
-/

namespace VisitorCounter

open Runs Programs

variable {ι : Type}

/-- A later version has no smaller count, and a larger one if it was counted. -/
theorem Lineage.count_add_le_of_append {sys : System ι} {later older : List (Version ι)}
    (h : Lineage sys (later ++ older)) (hbelow : ItemsBelow sys (later ++ older))
    {v w : Version ι} (hv : v ∈ older) (hw : w ∈ later) :
    v.request.item.count.toNat + (if w.request.counts then 1 else 0) ≤
      w.request.item.count.toNat := by
  induction later with
  | nil => cases hw
  | cons x later ih =>
      rw [List.cons_append] at h hbelow
      have hearlier := hbelow.of_cons
      cases h with
      | put hlineage hprep hholds =>
          rcases List.mem_cons.mp hw with rfl | hw
          · have hstep := hprep.storedCount_cons hholds hearlier.current
            rw [System.storedCount_cons] at hstep
            have hle := hlineage.count_le_storedCount hearlier v.request.item
              (List.mem_append_left _ (List.mem_map_of_mem (List.mem_append_right _ hv)))
            omega
          · exact ih hlineage hearlier hw

variable [DecidableEq ι] {d : Deployment ι} {clock : ℤ} {name : String} {s mid : Service ι}

/-- The puts that were applied stay. -/
theorem log_suffix_run {trace : List (ServiceEvent ι)} (run : Run (ServiceStep d) mid trace s) :
    mid.log <:+ s.log := by
  refine run.invariant (P := fun s => mid.log <:+ s.log) List.suffix_rfl ?_
  rintro s e s' hsuffix hstep
  have hdeliver : ∀ put applied, mid.log <:+ (s.deliver put applied).log := by
    intro put applied
    cases applied with
    | false => exact hsuffix
    | true => exact hsuffix.trans (List.suffix_cons put s.log)
  cases hstep with
  | tick => exact hsuffix
  | readClock => exact hsuffix
  | get => exact hsuffix
  | put => exact hdeliver _ _
  | putAgain => exact hdeliver _ _
  | reply => exact hsuffix
  | failGet => exact hsuffix
  | failPut => exact hsuffix

omit [DecidableEq ι] in
/-- A handler that has not read the clock has not begun its first attempt. -/
theorem Tracks.of_unread {inv : Invocation} {i : ι} {p : HandlerProgram} {reads : List ℤ}
    {replies : List Bool} {stage : Stage} {phase : Phase}
    (h : Tracks d name inv i p reads replies stage phase) (hreads : reads = []) :
    phase = loop 0 := by
  cases h with
  | arrived => rfl
  | sawVisitor => cases hreads
  | looping => cases hreads
  | waiting => cases hreads
  | done => cases hreads

/-- So it has put nothing. -/
theorem putsBy_of_unread {trace : List (ServiceEvent ι)}
    (run : Run (fun s e s' => ServiceStep d s e s' ∧ s.Truthful e) (d.start clock) trace s)
    {initial : Option StoredItem} (hstocked : Stocked d name (s.foretell d.tag initial)) {i : ι}
    (hvisits : d.Visits i name) (hreads : s.reads i = []) : putsBy name s.log i = [] := by
  obtain ⟨a, hview, -, haccounted⟩ := exists_accounted_view run hstocked
  have hi := haccounted i
  rw [(hview.visiting i hvisits).of_unread hreads] at hi
  rw [hview.putsBy_eq, show a.table.own i = [] from hi]
  rfl

/-- **Responses are given in order.**  Handlers of any number of requests run at the same
time; gets may be stale, but puts are acknowledged truthfully.  The first item of the
counter is absent or as the store writes it, and there are fewer puts than its count has
room for.  A request that comes in after another one for its counter was answered is shown
no smaller count, and a larger one if its put changed the count. -/
theorem responses_in_order {earlier later : List (ServiceEvent ι)}
    (before : Run (fun s e s' => ServiceStep d s e s' ∧ s.Truthful e) (d.start clock) earlier mid)
    (after : Run (fun s e s' => ServiceStep d s e s' ∧ s.Truthful e) mid later s)
    {initial : Option StoredItem}
    (hitems : d.items name = initial.map (StoredItem.attributes d.ciborium name))
    (hfits : ∀ item ∈ initial, item.recent.length < 2 ^ 64)
    (hputs : countOf initial + s.log.length < 2 ^ 64 - 1) {i j : ι} (hi : d.Visits i name)
    (hj : d.Visits j name) {response response' : Response}
    (hanswered : mid.handler i = .done (.ok response)) (hunread : mid.reads j = [])
    (hanswered' : s.handler j = .done (.ok response')) :
    ∃ put' count count', putsBy name s.log j = [put'] ∧
      ShowsCount d.crates (d.tag i) name count response ∧
      ShowsCount d.crates (d.tag j) name count' response' ∧
      count ≤ count' ∧ (put'.counts = true → count < count') := by
  have run := before.append after
  obtain ⟨newer, hlog⟩ := log_suffix_run (after.mono fun _ _ _ hstep => hstep.1)
  have hstocked : ∀ s : Service ι, Stocked d name (s.foretell d.tag initial) :=
    fun _ => ⟨hitems, hfits⟩
  obtain ⟨b, hviewMid, -, haccountedMid⟩ := exists_accounted_view before (hstocked mid)
  obtain ⟨a, hview, hlineage, haccounted⟩ := exists_accounted_view run (hstocked s)
  obtain ⟨put, count, hput, hcount, hshows⟩ :=
    hviewMid.answered (fun _ _ => rfl) haccountedMid hi hanswered
  obtain ⟨put', count', hput', hcount', hshows'⟩ :=
    hview.answered (fun _ _ => rfl) haccounted hj hanswered'
  refine ⟨put', count, count', hput', hshows, hshows', ?_⟩
  -- The put of the second handler is among the versions since, that of the first one is not.
  have hversions := hview.log
  rw [← hlog, underKey_append] at hversions
  obtain ⟨since, until', happend, hsince, huntil⟩ := List.map_eq_append_iff.mp hversions.symm
  have hold : put ∈ underKey name mid.log := by
    have hmem : put ∈ putsBy name mid.log i := by rw [hput]; exact List.mem_cons_self
    exact (List.mem_filter.mp hmem).1
  have hnew : put' ∈ underKey name newer := by
    have hmem : put' ∈ putsBy name s.log j := by rw [hput']; exact List.mem_cons_self
    obtain ⟨hunder, hauthor⟩ := List.mem_filter.mp hmem
    rw [← hlog, underKey_append] at hunder
    refine (List.mem_append.mp hunder).resolve_right fun hmid => ?_
    have hmem' : put' ∈ putsBy name mid.log j := List.mem_filter.mpr ⟨hmid, hauthor⟩
    rw [putsBy_of_unread before (hstocked mid) hj hunread] at hmem'
    cases hmem'
  rw [← huntil] at hold
  rw [← hsince] at hnew
  obtain ⟨v, hv, rfl⟩ := List.mem_map.mp hold
  obtain ⟨w, hw, rfl⟩ := List.mem_map.mp hnew
  have hbelow := hview.itemsBelow hlineage hputs
  rw [happend] at hlineage hbelow
  have hle := hlineage.count_add_le_of_append hbelow hv hw
  obtain rfl := Except.ok.inj (hcount.symm.trans (sentPut_count v))
  obtain rfl := Except.ok.inj (hcount'.symm.trans (sentPut_count w))
  rw [UInt64.le_iff_toNat_le, UInt64.lt_iff_toNat_lt, sentPut_counts]
  refine ⟨by omega, fun hcounts => ?_⟩
  rw [hcounts, if_pos rfl] at hle
  omega

/-- The visit of the first visitor. -/
def firstVisit : List (ServiceEvent Guest) :=
  [.reply .first true, .put .first true, .get .first none, .readClock .first, .readClock .first]

/-- The visit of the second one, after it. -/
def secondVisit : List (ServiceEvent Guest) :=
  [.reply .second true, .put .second true,
    .get .second (some (StoredItem.attributes Ciborium.reference "default"
      ⟨1, ⟨[⟨603546820, 100⟩]⟩⟩)),
    .readClock .second, .readClock .second]

/-- Every count can be shown to these visitors. -/
theorem exists_respond_twoRequests (visitor : Visitor) (count : UInt64) :
    ∃ response, respond twoRequests.crates twoRequests.config visitor "default" count =
      .ok response := by
  have hdigits := digitCount_le count
  refine exists_respond (by unfold HeadersValid; decide) ?_
  show 2 + max (digitCount count.toNat) 5 * 9 +
    3 * max (5 / 3) (digitCount count.toNat / 3) < 2 ^ 31
  omega

/-- The second visitor is shown a larger count than the first one was. -/
theorem responses_in_order_twoRequests : ∃ mid s response response' count count',
    Run (fun s e s' => ServiceStep twoRequests s e s' ∧ s.Truthful e)
      (twoRequests.start 1690000100000000000) firstVisit mid ∧
    Run (fun s e s' => ServiceStep twoRequests s e s' ∧ s.Truthful e) mid secondVisit s ∧
    mid.handler .first = .done (.ok response) ∧ s.handler .second = .done (.ok response') ∧
    ShowsCount Crates.reference 603546820 "default" count response ∧
    ShowsCount Crates.reference 1484864595 "default" count' response' ∧ count < count' := by
  obtain ⟨mid, s, before, after, hanswered, hunread, hanswered', hlog, hputs⟩ : ∃ mid s,
      Run (fun s e s' => ServiceStep twoRequests s e s' ∧ s.Truthful e)
        (twoRequests.start 1690000100000000000) firstVisit mid ∧
      Run (fun s e s' => ServiceStep twoRequests s e s' ∧ s.Truthful e) mid secondVisit s ∧
      mid.handler .first = .done (respond twoRequests.crates twoRequests.config
        ⟨603546820, 1690000100000000000⟩ "default" 1) ∧ mid.reads .second = [] ∧
      s.handler .second = .done (respond twoRequests.crates twoRequests.config
        ⟨1484864595, 1690000100000000000⟩ "default" 2) ∧
      (∀ put ∈ putsBy "default" s.log .second, put.counts = true) ∧
      countOf none + s.log.length < 2 ^ 64 - 1 :=
    ⟨_, _, run_of_exec_guarded (fun _ _ _ => serviceStep_sound) rfl,
      run_of_exec_guarded (fun _ _ _ => serviceStep_sound) rfl, rfl, rfl, rfl, by decide, by decide⟩
  obtain ⟨response, hresponse⟩ := exists_respond_twoRequests ⟨603546820, 1690000100000000000⟩ 1
  obtain ⟨response', hresponse'⟩ := exists_respond_twoRequests ⟨1484864595, 1690000100000000000⟩ 2
  rw [hresponse] at hanswered
  rw [hresponse'] at hanswered'
  have hvisits : ∀ i, twoRequests.Visits i "default" := by
    intro i
    cases i <;> exact ⟨⟨_, rfl⟩, rfl, by decide⟩
  have hitems : twoRequests.items "default" =
      Option.map (StoredItem.attributes Ciborium.reference "default") none := rfl
  obtain ⟨put', count, count', hput', hshows, hshows', -, hlt⟩ :=
    responses_in_order before after hitems (fun _ h => nomatch h) hputs (hvisits .first)
      (hvisits .second) hanswered hunread hanswered'
  exact ⟨mid, s, response, response', count, count', before, after, hanswered, hanswered', hshows,
    hshows', hlt (hlog put' (by rw [hput']; exact List.mem_cons_self))⟩

end VisitorCounter

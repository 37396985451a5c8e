import VisitorCounter.Distinct
import VisitorCounter.Ledger
import VisitorCounter.Refinement
import VisitorCounter.Response

/-!
# What the service counts

What holds of the invocations on one item holds of the service, for each of its
counters and with any number of other counters at work: here it is said in terms of
requests, items and responses.

## Main Definitions

* `Deployment.entry`: what the store reads of an item
* `Booked`: what the items and the responses have to do with each other
* `countOf`, `ItemsBelow`: the count that a counter starts from, and room for its counts

## Main Results

* `ordered_reads`: a handler reads the clock in order
* `service_counts_distinct_visitors`: while all visits share a window, the count is
  the number of visitors
* `Lineage.count_le`: a count is no higher than the puts since the first item allow
* `responses_booked`: every response shows the count that its own put wrote
-/

namespace VisitorCounter

open Runs Programs

variable {ι : Type}

/-- What the store makes of the item under a key. -/
def Deployment.entry (d : Deployment ι) (log : List (SentPut ι)) (name : String) :
    Option (Except BoxError CountEntry) :=
  (d.current log name).map (CountEntry.ofAttributes d.ciborium)

/-- The tags of the visitors whose puts were applied under a key. -/
def Deployment.putTags (d : Deployment ι) (log : List (SentPut ι)) (name : String) :
    Finset UInt32 :=
  ((underKey name log).map fun put => d.tag put.author).toFinset

section Entry

variable {d : Deployment ι} {name : String} {sys : System ι} {s : Service ι} {a : Handlers ι}

/-- The item under the key of a counter is always one that the store can read. -/
theorem View.entry_eq (h : View d name sys s a) (hstocked : Stocked d name sys)
    (hlineage : Lineage sys a.table.versions) : d.entry s.log name =
      (sys.current a.table.versions).map fun item => .ok (CountEntry.ofItem item) := by
  rw [Deployment.entry, h.current_eq hstocked]
  cases hcurrent : sys.current a.table.versions with
  | none => rfl
  | some item =>
      have hfits := hlineage.length_recent_lt hstocked.fits item
        (System.mem_items_of_current hcurrent)
      rw [Option.map_some, Option.map_some, Option.map_some, ofAttributes_attributes _ _ hfits]

/-- The tags of the applied puts are those of the authors of the versions. -/
theorem View.putTags_eq (h : View d name sys s a) (hkeyed : Keyed d s)
    (htag : ∀ i, d.Visits i name → (sys.calls i).visitor.tag = d.tag i) :
    d.putTags s.log name = sys.appliedTags a.table.versions := by
  have hvisits : ∀ v ∈ a.table.versions, d.Visits v.author name := by
    intro v hv
    have hmem : v.sentPut d name ∈ underKey name s.log := by
      rw [h.log]
      exact List.mem_map_of_mem hv
    obtain ⟨hlog, hkey⟩ := List.mem_filter.mp hmem
    exact (hkeyed.log _ hlog).visits (of_decide_eq_true hkey)
  rw [Deployment.putTags, System.appliedTags, h.log, List.map_map]
  congr 1
  exact List.map_congr_left fun v hv => (htag _ (hvisits v hv)).symm

end Entry

/-! ### Readings of the clock -/

section Reads

variable [DecidableEq ι] {d : Deployment ι} {clock : ℤ} {trace : List (ServiceEvent ι)}
  {s : Service ι}

/-- A handler reads the clock in order, after the start and before the present. -/
theorem ordered_reads (run : Run (ServiceStep d) (d.start clock) trace s) (i : ι) :
    (clock :: s.reads i).Pairwise (· ≤ ·) ∧ ∀ t ∈ clock :: s.reads i, t ≤ s.clock := by
  refine run.invariant (P := fun s => (clock :: s.reads i).Pairwise (· ≤ ·) ∧
    ∀ t ∈ clock :: s.reads i, t ≤ s.clock) ?_ ?_
  · exact ⟨List.pairwise_singleton _ _, fun t ht => (List.mem_singleton.mp ht).le⟩
  rintro s e s' ⟨hordered, hbefore⟩ hstep
  cases hstep with
  | tick hclock hrep => exact ⟨hordered, fun t ht => (hbefore t ht).trans hclock⟩
  | @readClock j next hcall =>
      show (clock :: Function.update s.reads j (s.reads j ++ [s.clock]) i).Pairwise _ ∧
        ∀ t ∈ clock :: Function.update s.reads j (s.reads j ++ [s.clock]) i, t ≤ s.clock
      by_cases hij : i = j
      · subst hij
        rw [Function.update_self, ← List.cons_append, List.pairwise_append]
        refine ⟨⟨hordered, List.pairwise_singleton _ _, fun t ht now hnow => ?_⟩, fun t ht => ?_⟩
        · rw [List.mem_singleton.mp hnow]
          exact hbefore t ht
        · rcases List.mem_append.mp ht with ht | ht
          · exact hbefore t ht
          · exact (List.mem_singleton.mp ht).le
      · rw [Function.update_of_ne hij]
        exact ⟨hordered, hbefore⟩
  | get => exact ⟨hordered, hbefore⟩
  | put => exact ⟨hordered, hbefore⟩
  | putAgain => exact ⟨hordered, hbefore⟩
  | reply => exact ⟨hordered, hbefore⟩
  | failGet => exact ⟨hordered, hbefore⟩
  | failPut => exact ⟨hordered, hbefore⟩

/-- The times of the invocations that are foretold. -/
theorem foretell_times (run : Run (ServiceStep d) (d.start clock) trace s) (tag : ι → UInt32)
    (initial : Option StoredItem) (i : ι) :
    clock ≤ ((s.foretell tag initial).calls i).visitor.lastSeen ∧
      ((s.foretell tag initial).calls i).visitor.lastSeen ≤ ((s.foretell tag initial).calls i).now ∧
      ((s.foretell tag initial).calls i).now ≤ s.clock := by
  obtain ⟨hordered, hbefore⟩ := ordered_reads run i
  have htwo := length_reads_le run i
  have hclock := hbefore clock List.mem_cons_self
  simp only [Service.foretell]
  match hreads : s.reads i with
  | [] => exact ⟨hclock, le_rfl, le_rfl⟩
  | [seen] =>
      rw [hreads] at hordered hbefore
      exact ⟨List.rel_of_pairwise_cons hordered List.mem_cons_self, hbefore seen (by simp), le_rfl⟩
  | [seen, now] =>
      rw [hreads] at hordered hbefore
      exact ⟨List.rel_of_pairwise_cons hordered List.mem_cons_self,
        List.rel_of_pairwise_cons hordered.of_cons List.mem_cons_self, hbefore now (by simp)⟩
  | _ :: _ :: _ :: _ =>
      rw [hreads] at htwo
      simp only [List.length_cons] at htwo
      omega

end Reads

/-! ### Distinct visitors -/

section Distinct

variable [DecidableEq ι] {d : Deployment ι} {clock : ℤ} {trace : List (ServiceEvent ι)}
  {s : Service ι} {name : String}

/-- Invocations that are foretold share a window while the clock stays in one. -/
theorem sharedWindow_foretell (run : Run (ServiceStep d) (d.start clock) trace s)
    (hspan : s.clock < floorToSeconds clock + 7_200_000_000_000) {tag : ι → UInt32}
    {tags : Finset UInt32} (htag : ∀ i, tag i ∈ tags) (hcard : tags.card ≤ maxRecentVisitors)
    (initial : Option StoredItem) : SharedWindow (s.foretell tag initial) tags where
  seen_le i := (foretell_times run tag initial i).2.1
  within i j := by
    have hnow := (foretell_times run tag initial i).2.2
    have hseen := floorToSeconds_mono (foretell_times run tag initial j).1
    unfold Recent
    omega
  tag_mem := htag
  card_le := hcard

omit [DecidableEq ι] in
open Classical in
/-- Handlers that do not visit the counter can be given any tag. -/
theorem exists_tag (d : Deployment ι) (name : String) {tags : Finset UInt32}
    (htags : ∀ i, d.Visits i name → d.tag i ∈ tags) (hcard : tags.card ≤ maxRecentVisitors) :
    ∃ (tag : ι → UInt32) (tags' : Finset UInt32), (∀ i, d.Visits i name → tag i = d.tag i) ∧
      (∀ i, tag i ∈ tags') ∧ tags'.card ≤ maxRecentVisitors := by
  rcases tags.eq_empty_or_nonempty with rfl | ⟨other, hother⟩
  · refine ⟨fun _ => 0, {0}, fun i hi => ?_, fun _ => Finset.mem_singleton_self 0, ?_⟩
    · exact absurd (htags i hi) (Finset.notMem_empty _)
    · rw [Finset.card_singleton, maxRecentVisitors_eq]
      norm_num
  · refine ⟨fun i => if d.Visits i name then d.tag i else other, tags, fun i hi => if_pos hi,
      fun i => ?_, hcard⟩
    dsimp only
    split
    · exact htags i ‹_›
    · exact hother

/-- **The service counts distinct visitors.**  Any number of requests, for any counters,
are handled at the same time; gets may be stale, and puts late, repeated or failing.  As
long as the clock is less than two hours after the second in which it started, and no more
tags visit the counter than fit one list, the item of a counter that started without one
can be read, its count is the number of distinct tags whose puts were applied, and its list
has each of these tags once. -/
theorem service_counts_distinct_visitors
    (run : Run (ServiceStep d) (d.start clock) trace s) (hnone : d.items name = none)
    (hspan : s.clock < floorToSeconds clock + 7_200_000_000_000) {tags : Finset UInt32}
    (htags : ∀ i, d.Visits i name → d.tag i ∈ tags) (hcard : tags.card ≤ maxRecentVisitors) :
    (d.entry s.log name = none ∧ d.putTags s.log name = ∅) ∨
      ∃ entry, d.entry s.log name = some (.ok entry) ∧
        entry.count.toNat = (d.putTags s.log name).card ∧
        (entry.recentVisitors.map Visitor.tag).Nodup ∧
        (entry.recentVisitors.map Visitor.tag).toFinset = d.putTags s.log name := by
  obtain ⟨tag, tags', htag, hmem, hcard'⟩ := exists_tag d name htags hcard
  have hstocked : Stocked d name (s.foretell tag none) := ⟨hnone, fun _ h => nomatch h⟩
  obtain ⟨trace', a, hrun, -, hview⟩ :=
    exists_view_of_run hstocked run (foretold_foretell run htag none)
  have hlineage := lineage_table hrun
  have hentry := hview.entry_eq hstocked hlineage
  have hputs := hview.putTags_eq (Keyed.run run) fun i hi => htag i hi
  obtain ⟨hcount, hnodup, hmemTags⟩ :=
    (hlineage.tally rfl (sharedWindow_foretell run hspan hmem hcard' none)).stored
  have hsame : ((s.foretell tag none).storedTags a.table.versions).toFinset =
      d.putTags s.log name := by
    rw [hputs]
    ext tag
    simp [System.appliedTags, hmemTags]
  cases hcurrent : (s.foretell tag none).current a.table.versions with
  | none =>
      rw [hcurrent] at hentry
      rw [System.storedTags, hcurrent] at hsame
      exact Or.inl ⟨hentry, hsame.symm⟩
  | some item =>
      rw [hcurrent] at hentry
      have htagsEq : (CountEntry.ofItem item).recentVisitors.map Visitor.tag =
          (s.foretell tag none).storedTags a.table.versions := by
        rw [System.storedTags, hcurrent, CountEntry.ofItem_recentVisitors, List.map_map]
        rfl
      refine Or.inr ⟨_, hentry, ?_, ?_, ?_⟩
      · rw [System.storedCount_of_current hcurrent] at hcount
        rw [CountEntry.ofItem_count, hcount, ← hsame, List.toFinset_card_of_nodup hnodup]
      · rwa [htagsEq]
      · rw [htagsEq, hsame]

/-- Two visitors race, and are counted as two. -/
theorem service_counts_distinct_visitors_twoRequests :
    ∃ s entry, Run (ServiceStep twoRequests) (twoRequests.start 1690000100000000000) raceOfTwo s ∧
      twoRequests.entry s.log "default" = some (.ok entry) ∧ entry.count.toNat = 2 := by
  obtain ⟨s, run, hclock, hlog, -⟩ := run_raceOfTwo
  have hrun := run.mono fun _ _ _ hstep => hstep.1
  have htags : twoRequests.putTags s.log "default" = {603546820, 1484864595} := by
    rw [hlog]
    decide
  have hvisitors : ∀ i, twoRequests.Visits i "default" →
      twoRequests.tag i ∈ ({603546820, 1484864595} : Finset UInt32) := by
    intro i _
    cases i <;> decide
  rcases service_counts_distinct_visitors hrun rfl (by rw [hclock]; decide) hvisitors
    (by decide) with ⟨-, hnone⟩ | ⟨entry, hentry, hcount, -⟩
  · rw [htags] at hnone
    exact absurd hnone (by decide)
  · refine ⟨s, entry, hrun, hentry, ?_⟩
    rw [hcount, htags]
    rfl

end Distinct

/-! ### Truthful acknowledgements -/

/-- The outcomes of the deliveries that an invocation waits for. -/
def Phase.replies : Phase → List Bool
  | .put _ _ _ replies => replies
  | _ => []

section Truthful

variable {d : Deployment ι} {name : String} {inv : Invocation} {i : ι} {p : HandlerProgram}
  {reads : List ℤ} {replies : List Bool} {stage : Stage} {phase : Phase} {sys : System ι}
  {s : Service ι} {a : Handlers ι}

/-- The replies to a put are those that the invocation has. -/
theorem Tracks.replies_eq (h : Tracks d name inv i p reads replies stage phase) :
    phase.replies = replies := by
  have hloop : ∀ attempt, (loop attempt).replies = [] := fun attempt => by
    rw [loop]
    split_ifs <;> rfl
  cases h with
  | arrived => exact hloop 0
  | sawVisitor => exact hloop 0
  | looping => exact hloop _
  | waiting => rfl
  | done => rfl

theorem View.replies_eq (h : View d name sys s a) (hvisits : d.Visits i name) :
    a.table.replies i = s.replies i := by
  rw [← (h.visiting i hvisits).replies_eq, State.replies]
  cases a.table.phase i <;> rfl

/-- What is truthful of the service is truthful of what shows. -/
theorem View.truthful (h : View d name sys s a) {e : ServiceEvent ι} {act : Event ι}
    (hshows : Shows d name e (.act act)) (htruthful : s.Truthful e) :
    Truthful a.table act := by
  cases hshows with
  | get => trivial
  | put hvisits => exact (h.replies_eq hvisits).trans htruthful
  | putAgain => exact htruthful
  | reply => trivial
  | fail hvisits => exact (h.replies_eq hvisits).trans htruthful

/-- A handler that has answered has answered what its invocation returned. -/
theorem Tracks.of_done {result : Except HandlerFailure Response}
    (h : Tracks d name inv i p reads replies stage phase) (hvisits : d.Visits i name)
    (hp : p = .done result) : ∃ outcome, phase = .done outcome ∧
      reads = [inv.visitor.lastSeen, inv.now] ∧
      result = answer d.crates d.config inv.visitor name outcome.result := by
  cases h with
  | arrived =>
      rw [hvisits.program_eq] at hp
      cases hp
  | sawVisitor =>
      rw [hvisits.visitProgram_eq_call] at hp
      cases hp
  | @looping attempt left hleft =>
      cases left with
      | zero =>
          refine ⟨.error maxAttemptsExceeded, ?_, rfl, (Program.done.inj hp).symm⟩
          rw [loop, if_neg (by omega)]
      | succ left =>
          rw [Deployment.answering, attemptsProgram_succ] at hp
          cases hp
  | waiting => cases hp
  | done outcome => exact ⟨outcome, rfl, rfl, (Program.done.inj hp).symm⟩

end Truthful

/-! ### The books of the service -/

/-- The count that a put writes. -/
def SentPut.count (put : SentPut ι) : Except BoxError UInt64 := countAttribute put.input.item

/-- A put that changes the count: it creates the item, or writes another count than the
one it expects. -/
def SentPut.counts (put : SentPut ι) : Bool :=
  put.input.expressionAttributeValues.lookup ":count" ≠ put.input.item.lookup "count"

/-- The puts under a key that changed its count, newest first. -/
def countedUnder (name : String) (log : List (SentPut ι)) : List (SentPut ι) :=
  (underKey name log).filter SentPut.counts

/-- The puts of a handler under a key. -/
def putsBy [DecidableEq ι] (name : String) (log : List (SentPut ι)) (i : ι) : List (SentPut ι) :=
  (underKey name log).filter fun put => put.author = i

/-- What the items under a key, the puts and the responses have to do with each other. -/
structure Booked [DecidableEq ι] (d : Deployment ι) (name : String) (s : Service ι) : Prop where
  /-- The count is the number of puts that changed it. -/
  stored : ∀ item, d.current s.log name = some item →
    countAttribute item = .ok (UInt64.ofNat (countedUnder name s.log).length)
  /-- They brought it to `1`, `2`, `3` and so on. -/
  counts : (countedUnder name s.log).map SentPut.count =
    (List.range' 1 (countedUnder name s.log).length).reverse.map fun n => .ok (UInt64.ofNat n)
  /-- Every handler has at most one applied put. -/
  puts_le : ∀ i, (putsBy name s.log i).length ≤ 1
  /-- A response shows the count that the put of its handler wrote. -/
  answered : ∀ i response, d.Visits i name → s.handler i = .done (.ok response) →
    ∃ put count, putsBy name s.log i = [put] ∧ put.count = .ok count ∧
      ShowsCount d.crates (d.tag i) name count response
  /-- A handler that failed has no applied put, unless it failed to build the response. -/
  failed : ∀ i failure, d.Visits i name → s.handler i = .done (.error failure) →
    putsBy name s.log i = [] ∨ ∃ put count visitor, putsBy name s.log i = [put] ∧
      put.count = .ok count ∧ respond d.crates d.config visitor name count = .error failure

section Books

variable {d : Deployment ι} {name : String} {sys : System ι} {versions : List (Version ι)}

theorem sentPut_count (v : Version ι) :
    (v.sentPut d name).count = .ok v.request.item.count := by
  rw [SentPut.count, Version.sentPut, PutRequest.input_item, countAttribute_attributes]

theorem sentPut_counts (v : Version ι) : (v.sentPut d name).counts = v.request.counts := by
  obtain ⟨author, expected, item⟩ := v
  cases expected with
  | none => rfl
  | some count =>
      show decide (some (AttributeValue.n (u64ToString count)) ≠
        some (AttributeValue.n (u64ToString item.count))) = decide (some count ≠ some item.count)
      simp [u64ToString_injective.eq_iff]

/-- The counts of the items stay below the last `u64`. -/
abbrev ItemsBelow (sys : System ι) (versions : List (Version ι)) : Prop :=
  ∀ item ∈ sys.items versions, item.count.toNat < 2 ^ 64 - 1

/-- The count of an item, or zero without one. -/
def countOf (item : Option StoredItem) : ℕ :=
  match item with
  | some item => item.count.toNat
  | none => 0

/-- Every put raises the count by one at most. -/
theorem Lineage.count_le (h : Lineage sys versions)
    (hlength : countOf sys.initial + versions.length < 2 ^ 64) :
    ∀ item ∈ sys.items versions, item.count.toNat ≤ countOf sys.initial + versions.length := by
  induction h with
  | nil =>
      intro item hitem
      rw [System.items_nil, Option.mem_toList] at hitem
      rw [Option.mem_def.mp hitem]
      exact Nat.le_add_right _ _
  | @put versions v loaded hlineage hprep hholds ih =>
      rw [List.length_cons] at hlength ⊢
      have hearlier := ih (by omega)
      refine List.forall_mem_cons.mpr ⟨?_, fun item hitem => ?_⟩
      · have hcurrent : ∀ item, sys.current versions = some item →
            item.count.toNat ≤ countOf sys.initial + versions.length := fun item hcur =>
          hearlier item (System.mem_items_of_current hcur)
        have hstep := hprep.storedCount_cons hholds fun item hcur => by
          have hle := hcurrent item hcur
          omega
        rw [System.storedCount_cons] at hstep
        have hstored : sys.storedCount versions ≤ countOf sys.initial + versions.length := by
          rw [System.storedCount]
          cases hcur : sys.current versions with
          | none => exact Nat.zero_le _
          | some item => exact hcurrent item hcur
        rw [hstep]
        split <;> omega
      · have hle := hearlier item hitem
        omega

/-- What the puts under the key are, of the versions. -/
theorem View.countedUnder_eq {s : Service ι} {a : Handlers ι} (h : View d name sys s a) :
    countedUnder name s.log = (counted a.table.versions).map (Version.sentPut d name) := by
  rw [countedUnder, h.log, List.filter_map]
  congr 1
  exact List.filter_congr fun v _ => sentPut_counts v

theorem View.putsBy_eq [DecidableEq ι] {s : Service ι} {a : Handlers ι} (h : View d name sys s a)
    (i : ι) : putsBy name s.log i = (a.table.own i).map (Version.sentPut d name) := by
  rw [putsBy, h.log, List.filter_map]
  rfl

/-- The counts are below the last one when there are few enough puts. -/
theorem View.itemsBelow {s : Service ι} {a : Handlers ι} (h : View d name sys s a)
    (hlineage : Lineage sys a.table.versions)
    (hputs : countOf sys.initial + s.log.length < 2 ^ 64 - 1) :
    ItemsBelow sys a.table.versions := by
  have hlength : a.table.versions.length ≤ s.log.length := by
    rw [← List.length_map (Version.sentPut d name), ← h.log]
    exact List.length_filter_le _ _
  intro item hitem
  have hle := hlineage.count_le (by omega) item hitem
  omega

theorem ItemsBelow.countsBelow (h : ItemsBelow sys versions) : CountsBelow versions :=
  fun _ hv => h _ (List.mem_append_left _ (List.mem_map_of_mem hv))

end Books

section Books

variable [DecidableEq ι] {d : Deployment ι} {clock : ℤ} {trace : List (ServiceEvent ι)}
  {s : Service ι} {name : String} {sys : System ι} {a : Handlers ι}

/-- What a run with truthful acknowledgements is, seen from a counter. -/
theorem exists_accounted_view
    (run : Run (fun s e s' => ServiceStep d s e s' ∧ s.Truthful e) (d.start clock) trace s)
    {initial : Option StoredItem} (hstocked : Stocked d name (s.foretell d.tag initial)) :
    ∃ a, View d name (s.foretell d.tag initial) s a ∧
      Lineage (s.foretell d.tag initial) a.table.versions ∧
      ∀ i, Accounted i (a.table.own i) (a.table.phase i) := by
  obtain ⟨trace', a, hrun, -, hview⟩ := exists_view (Q := Truthful) hstocked
    (fun _ _ _ _ _ hview _ hshows _ htruthful => hview.truthful hshows htruthful) run
    (foretold_foretell (run.mono fun _ _ _ hstep => hstep.1) (fun _ _ => rfl) initial)
  exact ⟨a, hview, lineage_table hrun, accounted_run (table_run hrun)⟩

/-- A response shows the count that the put of its handler wrote. -/
theorem View.answered (h : View d name sys s a)
    (htag : ∀ i, d.Visits i name → (sys.calls i).visitor.tag = d.tag i)
    (haccounted : ∀ i, Accounted i (a.table.own i) (a.table.phase i)) {i : ι} {response : Response}
    (hvisits : d.Visits i name) (hdone : s.handler i = .done (.ok response)) :
    ∃ put count, putsBy name s.log i = [put] ∧ put.count = .ok count ∧
      ShowsCount d.crates (d.tag i) name count response := by
  obtain ⟨outcome, hphase, -, hresult⟩ := (h.visiting i hvisits).of_done hvisits hdone
  have hi := haccounted i
  rw [hphase] at hi
  cases outcome with
  | ok n =>
      obtain ⟨request, hown, rfl⟩ := hi
      refine ⟨(⟨i, request⟩ : Version ι).sentPut d name, request.item.count, ?_,
        sentPut_count _, ?_⟩
      · rw [h.putsBy_eq, hown]
        rfl
      · rw [← htag i hvisits]
        exact showsCount_of_respond hresult.symm
  | error error => cases hresult
  | panicked panic => cases hresult

/-- Accounted invocations keep the books of the service. -/
theorem View.booked (h : View d name sys s a) (hstocked : Stocked d name sys)
    (hlineage : Lineage sys a.table.versions) (hnone : sys.initial = none)
    (hbelow : CountsBelow a.table.versions)
    (htag : ∀ i, d.Visits i name → (sys.calls i).visitor.tag = d.tag i)
    (haccounted : ∀ i, Accounted i (a.table.own i) (a.table.phase i)) : Booked d name s where
  stored item hitem := by
    rw [h.current_eq hstocked] at hitem
    obtain ⟨stored, hstored, rfl⟩ := Option.map_eq_some_iff.mp hitem
    have hcount := hlineage.storedCount_eq hnone hbelow
    rw [System.storedCount_of_current hstored] at hcount
    rw [countAttribute_attributes, h.countedUnder_eq, List.length_map, ← hcount,
      UInt64.ofNat_toNat]
  counts := by
    have hcounts := hlineage.counts_eq hnone hbelow
    rw [h.countedUnder_eq, List.length_map, ← hcounts, List.map_map, List.map_map]
    refine List.map_congr_left fun v _ => ?_
    rw [Function.comp_apply, sentPut_count, Function.comp_apply, UInt64.ofNat_toNat]
  puts_le i := by
    rw [h.putsBy_eq, List.length_map]
    exact (haccounted i).length_le
  answered i response hvisits hdone := h.answered htag haccounted hvisits hdone
  failed i failure hvisits hdone := by
    obtain ⟨outcome, hphase, -, hresult⟩ := (h.visiting i hvisits).of_done hvisits hdone
    have hi := haccounted i
    rw [hphase] at hi
    rw [h.putsBy_eq]
    cases outcome with
    | ok n =>
        obtain ⟨request, hown, rfl⟩ := hi
        refine Or.inr ⟨(⟨i, request⟩ : Version ι).sentPut d name, request.item.count, _, ?_,
          sentPut_count _, hresult.symm⟩
        rw [hown]
        rfl
    | error error => exact Or.inl (by rw [show a.table.own i = [] from hi]; rfl)
    | panicked panic => exact Or.inl (by rw [show a.table.own i = [] from hi]; rfl)

/-- **Every response is booked.**  Handlers of any number of requests, for any counters,
run at the same time; gets may be stale, but puts are acknowledged truthfully.  Then for
every counter that started without an item, and with fewer than `2 ^ 64 - 1` puts, the
count is the number of the puts that changed it, which brought it to `1`, `2`, `3` and so
on without a gap or a repetition; every handler has at most one applied put; a handler that
answered has exactly one, and its response shows the count that this put wrote; a handler
that failed before it had a count has none. -/
theorem responses_booked
    (run : Run (fun s e s' => ServiceStep d s e s' ∧ s.Truthful e) (d.start clock) trace s)
    (hputs : s.log.length < 2 ^ 64 - 1) (hnone : d.items name = none) : Booked d name s := by
  have hstocked : Stocked d name (s.foretell d.tag none) := ⟨hnone, fun _ h => nomatch h⟩
  obtain ⟨a, hview, hlineage, haccounted⟩ := exists_accounted_view run hstocked
  have hbelow : ItemsBelow _ a.table.versions :=
    hview.itemsBelow hlineage (show 0 + s.log.length < _ by omega)
  exact hview.booked hstocked hlineage rfl hbelow.countsBelow (fun _ _ => rfl) haccounted

/-- Two visitors race, and the books are kept. -/
theorem responses_booked_twoRequests :
    ∃ s, Run (fun s e s' => ServiceStep twoRequests s e s' ∧ s.Truthful e)
        (twoRequests.start 1690000100000000000) raceOfTwo s ∧ Booked twoRequests "default" s := by
  obtain ⟨s, run, -, hlog, -⟩ := run_raceOfTwo
  exact ⟨s, run, responses_booked run (by rw [hlog]; decide) rfl⟩

end Books

end VisitorCounter

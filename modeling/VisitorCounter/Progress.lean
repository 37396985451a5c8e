import VisitorCounter.Kept
import VisitorCounter.Outcomes

/-!
# A visit that is left alone

The retry loop gives up after a few refused puts, but nothing blocks it: from every
state that a run reaches, a visit that is at the beginning of an attempt needs one get
and one put to be answered, if nobody else gets in between.  The one thing that can
stop it is an entry that is later than its own reading of the clock.

## Main Definitions

* `Deployment.HasLater`: the item of a counter has an entry that is later than a time

## Main Results

* `exists_attempt_eq_ok_iff`: which loaded items an attempt can work on
* `solo_visit_answered`: a visit that is left alone is answered, or it panics
-/

namespace VisitorCounter

open Runs Programs

/-! ### An attempt on the current item -/

section Attempt

variable {inv : Invocation} {loaded : Option StoredItem} {request : PutRequest}

/-- **An attempt puts something exactly when no loaded entry is later than its `now`**,
with times in order and in range. -/
theorem exists_attempt_eq_ok_iff (hseen : inv.visitor.lastSeen ≤ inv.now)
    (hrepSeen : Representable inv.visitor.lastSeen) (hrepNow : Representable inv.now) :
    (∃ request, inv.attempt loaded = .ok request) ↔ ∀ e ∈ entriesOf loaded, e.time ≤ inv.now := by
  constructor
  · rintro ⟨request, h⟩
    cases loaded with
    | none => exact fun e he => absurd he List.not_mem_nil
    | some item => exact le_now_of_attempt h
  · exact exists_attempt_eq_ok hseen hrepSeen hrepNow

/-- The put of an attempt is applied to the item that it was prepared from. -/
theorem holds_of_attempt (h : inv.attempt loaded = .ok request) : request.holds loaded = true := by
  cases loaded with
  | none =>
      obtain ⟨-, rfl⟩ := attempt_none_eq_ok_iff.mp h
      rfl
  | some item =>
      rcases attempt_some_cases h with hrefresh | hpush
      · exact hrefresh.written.holds_iff.mpr ⟨item, rfl, rfl⟩
      · exact hpush.written.holds_iff.mpr ⟨item, rfl, rfl⟩

end Attempt

/-! ### One handler alone -/

variable {ι : Type} [DecidableEq ι] {d : Deployment ι} {name : String} {s : Service ι} {i : ι}

/-- A put whose condition holds is applied and acknowledged, if nobody gets in between. -/
theorem exists_run_putItem {input : PutItemInput} {next : Except PutItemError Unit → HandlerProgram}
    (hcall : s.handler i = .call (.putItem input) next) (hholds : d.holds s.log input = true) :
    ∃ s', Run (ServiceStep d) s [.reply i true, .put i true] s' ∧
      s'.log = ⟨i, input⟩ :: s.log ∧ s'.handler i = next (.ok ()) := by
  refine ⟨_, .cons (.cons .nil (.put hcall hholds.symm)) (.reply hcall ?_), rfl, ?_⟩
  · simp
  · exact Function.update_self ..

/-- The item of a counter has an entry that is later than a time. -/
def Deployment.HasLater (d : Deployment ι) (log : List (SentPut ι)) (name : String) (t : ℤ) :
    Prop :=
  ∃ entry visitor, d.entry log name = some (.ok entry) ∧ visitor ∈ entry.recentVisitors ∧
    t < visitor.lastSeen

omit [DecidableEq ι] in
/-- The entries of the item, in the service and in the system. -/
theorem View.hasLater_iff {sys : System ι} {a : Handlers ι} (h : View d name sys s a)
    (hstocked : Stocked d name sys) (hlineage : Lineage sys a.table.versions) (t : ℤ) :
    d.HasLater s.log name t ↔
      ∃ e ∈ entriesOf (sys.current a.table.versions), t < e.time := by
  rw [Deployment.HasLater, h.entry_eq hstocked hlineage]
  cases sys.current a.table.versions with
  | none => simp [entriesOf]
  | some item =>
      constructor
      · rintro ⟨entry, visitor, hentry, hvisitor, hlater⟩
        obtain rfl := Except.ok.inj (Option.some.inj hentry)
        obtain ⟨e, he, rfl⟩ := List.mem_map.mp hvisitor
        exact ⟨e, he, hlater⟩
      · rintro ⟨e, he, hlater⟩
        exact ⟨_, Visitor.ofStored e, rfl, List.mem_map_of_mem he, hlater⟩

/-- **A visit that is left alone is answered.**  Take any run, with stale gets, repeated
puts and errors, the clock in range and the first item of the counter absent or as the
store writes it, to a state in which a visit waits for the reply to a get, at whatever
attempt.  With an up-to-date reply, and nobody else in between, its next put is applied
and the visit ends with the response for the count that it wrote, or with what kept that
response from being built; unless the item has an entry that is later than its second
reading of the clock: then it panics and puts nothing. -/
theorem solo_visit_answered {clock : ℤ} (hrep : Representable clock)
    {trace : List (ServiceEvent ι)} (run : Run (ServiceStep d) (d.start clock) trace s)
    {initial : Option StoredItem}
    (hitems : d.items name = initial.map (StoredItem.attributes d.ciborium name))
    (hfits : ∀ item ∈ initial, item.recent.length < 2 ^ 64) (hvisits : d.Visits i name)
    {input : GetItemInput} {next : Except BoxError GetItemOutput → HandlerProgram}
    (hget : s.handler i = .call (.getItem input) next) :
    ∃ seen now, s.reads i = [seen, now] ∧
      ((d.HasLater s.log name now ∧ ∃ s',
          Run (ServiceStep d) s [.get i (d.current s.log name)] s' ∧ s'.log = s.log ∧
          s'.handler i = .done (.error (.stopped (.panic ⟨"now is after last_seen"⟩)))) ∨
        (¬ d.HasLater s.log name now ∧ ∃ s' put count,
          Run (ServiceStep d) s [.reply i true, .put i true, .get i (d.current s.log name)] s' ∧
          s'.log = put :: s.log ∧ put.author = i ∧ keyOf put.input.item = some name ∧
          put.count = .ok count ∧
          s'.handler i = .done (respond d.crates d.config ⟨d.tag i, seen⟩ name count))) := by
  have hstocked : Stocked d name (s.foretell d.tag initial) := ⟨hitems, hfits⟩
  obtain ⟨trace', a, hrun, -, hview⟩ :=
    exists_view_of_run hstocked run (foretold_foretell run (fun _ _ => rfl) initial)
  have hlineage := lineage_table hrun
  obtain ⟨attempt, left, -, hreads, -, -, -, rfl, rfl⟩ :=
    (hview.visiting i hvisits).of_getItem hvisits hget
  obtain ⟨-, hseen, -⟩ := foretell_times run d.tag initial i
  have hrepReads := representable_reads hrep run i
  rw [hreads] at hrepReads
  have hlater := hview.hasLater_iff hstocked hlineage
    ((s.foretell d.tag initial).calls i).now
  have hattempts : (∃ request, ((s.foretell d.tag initial).calls i).attempt
      ((s.foretell d.tag initial).current a.table.versions) = .ok request) ↔ _ :=
    exists_attempt_eq_ok_iff hseen (hrepReads _ (by simp)) (hrepReads _ (by simp))
  -- The handler gets the item as it is, and goes on with what the store makes of it.
  have hserves : (s.foretell d.tag initial).Serves a.table.versions
      ((s.foretell d.tag initial).current a.table.versions) := by
    cases hcurrent : (s.foretell d.tag initial).current a.table.versions with
    | none => exact Or.inl rfl
    | some item => exact Or.inr ⟨item, System.mem_items_of_current hcurrent, rfl⟩
  have hread := readReply_of_serves hstocked hlineage hserves
  rw [← hview.current_eq hstocked] at hread
  have hkey : keyOf (countEntryGet d.config.tableName name).key = some name := rfl
  have hstep := ServiceStep.get hget (d.serves_current hkey s.log)
  rw [hread] at hstep
  dsimp only at hstep
  rw [updateProgram_eq, preparePut_eq] at hstep
  refine ⟨_, _, hreads, ?_⟩
  cases hattempt : ((s.foretell d.tag initial).calls i).attempt
      ((s.foretell d.tag initial).current a.table.versions) with
  | error panic =>
      obtain ⟨rfl, e, he, hlate⟩ := attempt_eq_error hseen (hrepReads _ (by simp))
        (hrepReads _ (by simp)) hattempt
      rw [hattempt] at hstep
      refine Or.inl ⟨hlater.mpr ⟨e, he, hlate⟩, _, .cons .nil hstep, rfl, ?_⟩
      exact Function.update_self ..
  | ok request =>
      have hnone := hattempts.mp ⟨request, hattempt⟩
      rw [hattempt] at hstep
      refine Or.inr ⟨fun h => ?_, ?_⟩
      · obtain ⟨e, he, hlate⟩ := hlater.mp h
        have hle := hnone e he
        omega
      · have hholds := holds_of_attempt hattempt
        rw [← hview.holds_eq hstocked] at hholds
        obtain ⟨s', hputs, hlog, hdone⟩ :=
          exists_run_putItem (s := s.goto i _) (Function.update_self i _ _) hholds
        refine ⟨s', _, request.item.count, (Run.cons .nil hstep).append hputs, hlog, rfl, ?_, ?_,
          ?_⟩
        · simp
        · exact sentPut_count ⟨i, request⟩
        · exact hdone

/-- A visit that has lost a race is answered when it is left alone. -/
theorem solo_visit_answered_twoRequests :
    ∃ s s' put count, Run (ServiceStep twoRequests) (twoRequests.start 1690000100000000000)
        (raceOfTwo.drop 3) s ∧
      Run (ServiceStep twoRequests) s
        [.reply .second true, .put .second true,
          .get .second (twoRequests.current s.log "default")] s' ∧
      s'.log = put :: s.log ∧ put.count = .ok count ∧ s'.handler .second =
        .done (respond twoRequests.crates twoRequests.config ⟨1484864595, 1690000100000000000⟩
          "default" count) := by
  obtain ⟨s, run, hlog, hreads, next, hget⟩ : ∃ s, Run (ServiceStep twoRequests)
      (twoRequests.start 1690000100000000000) (raceOfTwo.drop 3) s ∧ s.log = putsOfTwo.drop 1 ∧
      s.reads .second = [1690000100000000000, 1690000100000000000] ∧
      ∃ next, s.handler .second = .call (.getItem (countEntryGet "table" "default")) next :=
    ⟨_, run_of_exec (fun _ _ _ => serviceStep_sound) rfl, rfl, rfl, _, rfl⟩
  have hitems : twoRequests.items "default" =
      Option.map (StoredItem.attributes Ciborium.reference "default") none := rfl
  have hvisits : twoRequests.Visits .second "default" := ⟨⟨_, rfl⟩, rfl, by decide⟩
  have hentry : twoRequests.entry s.log "default" =
      some (.ok (CountEntry.ofItem ⟨1, ⟨[⟨603546820, 100⟩]⟩⟩)) := by
    rw [hlog]
    exact congrArg some (ofAttributes_attributes _ _ (by decide))
  obtain ⟨seen, now, hread, ⟨hlater, -⟩ | ⟨-, s', put, count, hrun, hput, -, -, hcount, hdone⟩⟩ :=
    solo_visit_answered (by unfold Representable; decide) run hitems (fun _ h => nomatch h)
      hvisits hget
  · obtain ⟨entry, visitor, hother, hvisitor, hlate⟩ := hlater
    obtain rfl := Except.ok.inj (Option.some.inj (hentry.symm.trans hother))
    obtain rfl := List.mem_singleton.mp hvisitor
    rw [hreads] at hread
    obtain ⟨-, hnow⟩ := List.cons.inj hread
    obtain rfl := (List.cons.inj hnow).1
    exact absurd hlate (by decide)
  · rw [hreads] at hread
    obtain rfl := (List.cons.inj hread).1
    exact ⟨s, s', put, count, run, hrun, hput, hcount, hdone⟩

end VisitorCounter

import VisitorCounter.Counting

/-!
# How a visit ends

A visit that is not answered has failed for one of a few reasons, and all of them
can be read off the run: the client has reported an error, as many puts as there are
attempts have been refused, a get has returned an entry that is later than the `now`
of the visit, or the count was there and the response could not be built.  No visit
fails on an item that it cannot read, unless the first item is such.

## Main Definitions

* `Explained`: what the trace has of how an invocation ends
* `FailsBy`: the causes of a failure

## Main Results

* `attempt_eq_error`: the only panic of an attempt, and when it happens
* `failures_explained`: why a visit fails
-/

namespace VisitorCounter

open Runs Programs RecencyList

/-! ### The panic of an attempt -/

/-- A step panics with one message only. -/
def PanicsWith {α : Type} (x : Except Panic α) (message : String) : Prop :=
  ∀ panic, x = .error panic → panic = ⟨message⟩

theorem panicsWith_ok {α : Type} (a : α) (message : String) :
    PanicsWith (Except.ok a) message := fun _ h => nomatch h

theorem PanicsWith.bind {α β : Type} {x : Except Panic α} {f : α → Except Panic β}
    {message : String} (hx : PanicsWith x message)
    (hf : ∀ a, x = .ok a → PanicsWith (f a) message) : PanicsWith (x >>= f) message := by
  intro panic h
  cases hresult : x with
  | error other =>
      rw [hresult] at h
      obtain rfl : other = panic := Except.error.inj h
      exact hx other hresult
  | ok a =>
      rw [hresult] at h
      exact hf a hresult panic h

theorem seenRecently_panicsWith (now : ℤ) (v : Visitor) :
    PanicsWith (seenRecently now v) "now is after last_seen" := by
  intro panic h
  rcases le_or_gt v.lastSeen now with hle | hlt
  · rw [seenRecently_of_le hle] at h
    cases h
  · rw [seenRecently_of_lt hlt] at h
    exact (Except.error.inj h).symm

theorem filterM_seenRecently_panicsWith (now : ℤ) (l : List Visitor) :
    PanicsWith (l.filterM (seenRecently now)) "now is after last_seen" := by
  have haux : ∀ acc, PanicsWith (List.filterAuxM (seenRecently now) l acc)
      "now is after last_seen" := by
    induction l with
    | nil => exact fun acc => panicsWith_ok acc _
    | cons v l ih =>
        intro acc
        exact (seenRecently_panicsWith now v).bind fun b _ => ih _
  exact (haux []).bind fun kept _ => panicsWith_ok _ _

theorem recordVisit_panicsWith (countEntry : CountEntry) (visitor : Visitor) (now : ℤ) :
    PanicsWith (recordVisit countEntry visitor now) "now is after last_seen" := by
  have hfind : PanicsWith (findRecentMut countEntry visitor now) "now is after last_seen" := by
    rw [findRecentMut]
    split
    · exact panicsWith_ok _ _
    · refine (seenRecently_panicsWith now _).bind fun b _ => ?_
      split <;> exact panicsWith_ok _ _
  refine hfind.bind fun place _ => ?_
  split <;> exact panicsWith_ok _ _

/-- What an attempt has in memory can be written when its times are in range. -/
theorem representable_of_recordVisit {inv : Invocation} {item : StoredItem} {recorded : CountEntry}
    (hrepSeen : Representable inv.visitor.lastSeen) (hrepNow : Representable inv.now)
    (h : recordVisit (CountEntry.ofItem item) inv.visitor inv.now = .ok recorded) :
    ∀ v ∈ recorded.recentVisitors, Representable v.lastSeen := by
  have hold : ∀ v ∈ (CountEntry.ofItem item).recentVisitors, Representable v.lastSeen := by
    intro v hv
    obtain ⟨e, -, rfl⟩ := List.mem_map.mp hv
    exact representable_time e
  rcases recordVisit_cases h with ⟨found, -, -, -, -, hlist⟩ | ⟨-, -, hlist⟩
  · rw [hlist]
    intro v hv
    rcases mem_updateFirst hv with hmem | ⟨found, -, rfl⟩
    · exact hold v hmem
    · exact hrepNow
  · rw [hlist]
    intro v hv
    rcases List.mem_append.mp hv with hmem | hmem
    · exact hold v hmem
    · rw [List.mem_singleton.mp hmem]
      exact hrepSeen

/-- **The only panic of an attempt**, with times in order and in range: the loaded item
has an entry that is later than `now`. -/
theorem attempt_eq_error {inv : Invocation} {loaded : Option StoredItem} {panic : Panic}
    (hseen : inv.visitor.lastSeen ≤ inv.now) (hrepSeen : Representable inv.visitor.lastSeen)
    (hrepNow : Representable inv.now) (h : inv.attempt loaded = .error panic) :
    panic = ⟨"now is after last_seen"⟩ ∧ ∃ e ∈ entriesOf loaded, inv.now < e.time := by
  constructor
  · cases loaded with
    | none =>
        rw [attempt_none_eq_ok_iff.mpr ⟨hrepSeen, rfl⟩] at h
        cases h
    | some item =>
        refine PanicsWith.bind (recordVisit_panicsWith _ _ _) (fun recorded hrecord => ?_) panic h
        refine PanicsWith.bind ?_ fun pruned hprune => ?_
        · exact (filterM_seenRecently_panicsWith _ _).bind fun kept _ => panicsWith_ok _ _
        · -- What is left of the list can be written.
          have hrep := representable_of_recordVisit hrepSeen hrepNow hrecord
          have hpruned : ∀ v ∈ pruned.recentVisitors, Representable v.lastSeen := by
            rw [(pruneVisitors_eq_ok_iff.mp hprune).2.2]
            exact fun v hv => hrep v (List.mem_of_mem_filter (mem_of_mem_cull hv))
          rw [countEntryPut_eq_ok_iff.mpr ⟨hpruned, rfl⟩]
          exact panicsWith_ok _ _
  · by_contra hnone
    obtain ⟨request, hok⟩ := exists_attempt_eq_ok hseen hrepSeen hrepNow fun e he =>
      not_lt.mp fun hlt => hnone ⟨e, he, hlt⟩
    cases h.symm.trans hok

/-! ### Why an invocation fails -/

variable {ι : Type} [DecidableEq ι]

/-- What the trace has of the failed puts of an invocation, and of how it ends. -/
def Explained (sys : System ι) (trace : List (Event ι)) (i : ι) : Phase → Prop
  | .get attempt => trace.count (.reply i false) = attempt
  | .put attempt _ _ _ => trace.count (.reply i false) = attempt
  | .done (.ok _) => .reply i true ∈ trace
  | .done (.error error) => .fail i error ∈ trace ∨ error = maxAttemptsExceeded ∧
      trace.count (.reply i false) = maxAttemptsForOptimisticLocking
  | .done (.panicked panic) =>
      ∃ loaded, .get i loaded ∈ trace ∧ (sys.calls i).attempt loaded = .error panic

section Explained

variable {sys : System ι} {trace : List (Event ι)} {i : ι}

theorem Explained.cons {phase : Phase} (h : Explained sys trace i phase) {e : Event ι}
    (he : e ≠ .reply i false) : Explained sys (e :: trace) i phase := by
  have hcount : (e :: trace).count (.reply i false) = trace.count (.reply i false) :=
    List.count_cons_of_ne he
  unfold Explained at *
  split at h
  · rw [hcount, h]
  · rw [hcount, h]
  · exact List.mem_cons_of_mem _ h
  · rw [hcount]
    exact h.imp_left (List.mem_cons_of_mem _)
  · obtain ⟨loaded, hmem, hpanic⟩ := h
    exact ⟨loaded, List.mem_cons_of_mem _ hmem, hpanic⟩

theorem explained_loop {attempt : ℕ} (hle : attempt ≤ maxAttemptsForOptimisticLocking)
    (h : trace.count (.reply i false) = attempt) : Explained sys trace i (loop attempt) := by
  rw [loop]
  split
  · exact h
  · exact Or.inr ⟨rfl, by omega⟩

/-- An invocation is in one of its attempts. -/
def Phase.InBudget : Phase → Prop
  | .get attempt => attempt < maxAttemptsForOptimisticLocking
  | .put attempt _ _ _ => attempt < maxAttemptsForOptimisticLocking
  | .done _ => True

theorem inBudget_loop (attempt : ℕ) : (loop attempt).InBudget := by
  rw [loop]
  split
  · assumption
  · trivial

/-- A step keeps the failures explained. -/
theorem explained_step {s s' : State ι} {e : Event ι} (hstep : Step sys s e s')
    (h : Explained sys trace i (s.phase i) ∧ (s.phase i).InBudget) :
    Explained sys (e :: trace) i (s'.phase i) ∧ (s'.phase i).InBudget := by
  obtain ⟨hold, hbudget⟩ := h
  refine hstep.phase_rule (P := fun phase => Explained sys (e :: trace) i phase ∧ phase.InBudget)
    i ?others ?get ?put ?putAgain ?reply ?fail
  case others =>
    intro hi
    exact ⟨hold.cons fun he => hi (by rw [he]; rfl), hbudget⟩
  case get =>
    rintro attempt loaded rfl hphase -
    rw [hphase] at hold hbudget
    rw [afterGet]
    cases hattempt : (sys.calls i).attempt loaded with
    | ok request => exact ⟨hold.cons (by simp), hbudget⟩
    | error panic => exact ⟨⟨loaded, List.mem_cons_self, hattempt⟩, trivial⟩
  case put =>
    rintro attempt loaded request replies applied rfl hphase -
    rw [hphase] at hold hbudget
    exact ⟨hold.cons (by simp), hbudget⟩
  case putAgain =>
    rintro request applied rfl
    exact ⟨hold.cons (by simp), hbudget⟩
  case reply =>
    rintro attempt loaded request replies applied rfl hphase -
    rw [hphase] at hold hbudget
    rw [afterReply]
    cases applied with
    | true => exact ⟨List.mem_cons_self, trivial⟩
    | false =>
        refine ⟨explained_loop hbudget ?_, inBudget_loop _⟩
        rw [List.count_cons_self]
        exact congrArg (· + 1) hold
  case fail =>
    rintro error rfl -
    exact ⟨Or.inl List.mem_cons_self, trivial⟩

/-- **Every failure is explained in every run.** -/
theorem explained_run {s : State ι} (run : Run (Step sys) sys.start trace s) (i : ι) :
    Explained sys trace i (s.phase i) :=
  (run.invariant_trace (P := fun trace s => Explained sys trace i (s.phase i) ∧
    (s.phase i).InBudget) ⟨explained_loop (Nat.zero_le _) rfl, inBudget_loop 0⟩
    fun _ _ _ _ _ h hstep => explained_step hstep h).1

/-- What a get of the trace returned is a version, or nothing. -/
theorem serves_of_mem {s : State ι} (run : Run (Step sys) sys.start trace s)
    {loaded : Option StoredItem} : .get i loaded ∈ trace → sys.Serves s.versions loaded := by
  refine run.invariant_trace (P := fun trace s => .get i loaded ∈ trace →
    sys.Serves s.versions loaded) (fun hmem => nomatch hmem) ?_
  rintro trace s e s' - ih hstep hmem
  have hserves : sys.Serves s.versions loaded := by
    rcases List.mem_cons.mp hmem with rfl | hmem
    · cases hstep with
      | get _ hserves => exact hserves
    · exact ih hmem
  exact hserves.mono hstep.versions_suffix

/-- A put of the trace that was applied is a version. -/
theorem mem_versions_of_put {s : State ι} (run : Run (Step sys) sys.start trace s)
    {request : PutRequest} : .put i request true ∈ trace → ⟨i, request⟩ ∈ s.versions := by
  refine run.invariant_trace (P := fun trace s => .put i request true ∈ trace →
    ⟨i, request⟩ ∈ s.versions) (fun hmem => nomatch hmem) ?_
  rintro trace s e s' - ih hstep hmem
  rcases List.mem_cons.mp hmem with rfl | hmem
  · rw [hstep.versions_eq]
    exact List.mem_cons_self
  · exact hstep.versions_suffix.subset (ih hmem)

end Explained

/-! ### Why a visit fails -/

section Failures

variable {d : Deployment ι} {clock : ℤ} {trace : List (ServiceEvent ι)} {s : Service ι}
  {name : String}

/-- What is read from the clock is in range. -/
theorem representable_reads (hrep : Representable clock)
    (run : Run (ServiceStep d) (d.start clock) trace s) (i : ι) :
    ∀ t ∈ s.reads i, Representable t := by
  refine (run.invariant (P := fun s => Representable s.clock ∧ ∀ t ∈ s.reads i, Representable t)
    ⟨hrep, fun _ ht => absurd ht List.not_mem_nil⟩ ?_).2
  rintro s e s' ⟨hclock, hreads⟩ hstep
  cases hstep with
  | tick _ hrep => exact ⟨hrep, hreads⟩
  | @readClock j next hcall =>
      refine ⟨hclock, ?_⟩
      show ∀ t ∈ Function.update s.reads j (s.reads j ++ [s.clock]) i, Representable t
      by_cases hij : i = j
      · subst hij
        rw [Function.update_self]
        intro t ht
        rcases List.mem_append.mp ht with ht | ht
        · exact hreads t ht
        · rw [List.mem_singleton.mp ht]
          exact hclock
      · rwa [Function.update_of_ne hij]
  | get => exact ⟨hclock, hreads⟩
  | put => exact ⟨hclock, hreads⟩
  | putAgain => exact ⟨hclock, hreads⟩
  | reply => exact ⟨hclock, hreads⟩
  | failGet => exact ⟨hclock, hreads⟩
  | failPut => exact ⟨hclock, hreads⟩

/-- The refused puts of a visit are counted the same in both traces. -/
theorem countP_reply_eq {trace' : List (HandlerEvent ι)}
    (h : Mirrors (Shows d name) trace trace') {i : ι} (hvisits : d.Visits i name) :
    trace.count (.reply i false) =
      (trace'.filterMap HandlerEvent.table).count (.reply i false) := by
  have hmirrored : trace.countP (· == .reply i false) =
      trace'.countP (· == .act (.reply i false)) := by
    refine h.countP_eq (fun e e' hshows => ?_) fun e hhidden => ?_
    · cases hshows <;> simp
    · refine beq_eq_false_iff_ne.mpr ?_
      rintro rfl
      exact hhidden _ (.reply hvisits false)
  rw [List.count, hmirrored, List.count, List.countP_filterMap]
  refine List.countP_congr fun e _ => ?_
  cases e <;> simp [HandlerEvent.table]

/-- Why a visit of a counter fails, as a run has it. -/
inductive FailsBy (d : Deployment ι) (name : String) (trace : List (ServiceEvent ι))
    (s : Service ι) (i : ι) : HandlerFailure → Prop
  /-- The client reported the error to the handler. -/
  | client {error : BoxError} (hfail : .fail i error ∈ trace) :
      FailsBy d name trace s i (.stopped (.error error))
  /-- The handler heard at every attempt that the condition of its put had failed. -/
  | refused (hcount : trace.count (.reply i false) = maxAttemptsForOptimisticLocking) :
      FailsBy d name trace s i (.stopped (.error maxAttemptsExceeded))
  /-- A get returned an entry that is later than the handler's second reading of the clock. -/
  | late {item : Item} {entry : CountEntry} {seen now : ℤ} {v : Visitor}
      (hget : .get i (some item) ∈ trace)
      (hentry : CountEntry.ofAttributes d.ciborium item = .ok entry)
      (hreads : s.reads i = [seen, now]) (hv : v ∈ entry.recentVisitors)
      (hlate : now < v.lastSeen) :
      FailsBy d name trace s i (.stopped (.panic ⟨"now is after last_seen"⟩))
  /-- The handler's put was applied and acknowledged, and the response for the count that it
  wrote could not be built. -/
  | unshown {put : SentPut ι} {count : UInt64} {seen now : ℤ} {failure : HandlerFailure}
      (hput : put ∈ underKey name s.log) (hauthor : put.author = i) (hcount : put.count = .ok count)
      (hreply : .reply i true ∈ trace) (hreads : s.reads i = [seen, now])
      (hrespond : respond d.crates d.config ⟨d.tag i, seen⟩ name count = .error failure) :
      FailsBy d name trace s i failure

omit [DecidableEq ι] in
/-- Every item that a counter ever has can be read. -/
theorem View.exists_entry {sys : System ι} {a : Handlers ι} (h : View d name sys s a)
    (hstocked : Stocked d name sys) (hlineage : Lineage sys a.table.versions) {item : Item}
    (hitem : item ∈ d.versions s.log name) :
    ∃ entry, CountEntry.ofAttributes d.ciborium item = .ok entry := by
  rw [h.versions_eq hstocked] at hitem
  obtain ⟨stored, hstored, rfl⟩ := List.mem_map.mp hitem
  exact ⟨_, ofAttributes_attributes _ _ (hlineage.length_recent_lt hstocked.fits stored hstored)⟩

/-- **Why a visit fails.**  Whatever the table answers, with the clock in range, and for a
counter whose first item is absent or as the store writes it: every item of the counter can
be read, and a visit fails because the client reported the error to it, or because it heard
at every attempt that the condition of its put had failed, or with a panic because a get
returned an entry that is later than its own second reading of the clock; or its put was
applied and acknowledged, and the response for its count could not be built. -/
theorem failures_explained (hrep : Representable clock)
    (run : Run (ServiceStep d) (d.start clock) trace s) {initial : Option StoredItem}
    (hitems : d.items name = initial.map (StoredItem.attributes d.ciborium name))
    (hfits : ∀ item ∈ initial, item.recent.length < 2 ^ 64) :
    (∀ item ∈ d.versions s.log name,
        ∃ entry, CountEntry.ofAttributes d.ciborium item = .ok entry) ∧
      ∀ i failure, d.Visits i name → s.handler i = .done (.error failure) →
        FailsBy d name trace s i failure := by
  have hstocked : Stocked d name (s.foretell d.tag initial) := ⟨hitems, hfits⟩
  obtain ⟨trace', a, hrun, hmirrors, hview⟩ :=
    exists_view_of_run hstocked run (foretold_foretell run (fun _ _ => rfl) initial)
  have hlineage := lineage_table hrun
  have htable := (table_run hrun).mono fun _ _ _ h => h.1
  refine ⟨fun item hitem => hview.exists_entry hstocked hlineage hitem, ?_⟩
  intro i failure hvisits hfailed
  -- An event of the table shows in the trace of the service.
  have hshown : ∀ act, act ∈ trace'.filterMap HandlerEvent.table →
      ∃ e ∈ trace, Shows d name e (.act act) := by
    intro act hmem
    obtain ⟨event, hevent, hact⟩ := List.mem_filterMap.mp hmem
    obtain ⟨e, he, hshows⟩ := hmirrors.exists_shown hevent
    cases event with
    | act other => exact ⟨e, he, Option.some.inj hact ▸ hshows⟩
    | tick => cases hact
    | readLastSeen => cases hact
    | readNow => cases hact
  obtain ⟨outcome, hphase, hreads, hresult⟩ := (hview.visiting i hvisits).of_done hvisits hfailed
  have hexplained := explained_run htable i
  rw [hphase] at hexplained
  cases outcome with
  | ok n =>
      obtain ⟨e, he, hshows⟩ := hshown _ hexplained
      have hannounced := announced_run htable i
      rw [hphase] at hannounced
      obtain ⟨request, hput, rfl⟩ := hannounced
      have hlog : (⟨i, request⟩ : Version ι).sentPut d name ∈ underKey name s.log := by
        rw [hview.log]
        exact List.mem_map_of_mem (mem_versions_of_put htable hput)
      cases hshows with
      | reply => exact .unshown hlog rfl (sentPut_count _) he hreads hresult.symm
  | error error =>
      obtain rfl := Except.error.inj hresult
      rcases hexplained with hmem | ⟨rfl, hcount⟩
      · obtain ⟨e, he, hshows⟩ := hshown _ hmem
        cases hshows with
        | fail => exact .client he
      · exact .refused (by rw [countP_reply_eq hmirrors hvisits, hcount])
  | panicked panic =>
      obtain rfl := Except.error.inj hresult
      obtain ⟨loaded, hmem, hpanic⟩ := hexplained
      obtain ⟨-, hseen, -⟩ := foretell_times run d.tag initial i
      have hrepReads := representable_reads hrep run i
      rw [hreads] at hrepReads
      obtain ⟨rfl, entry, hentry, hlater⟩ := attempt_eq_error hseen (hrepReads _ (by simp))
        (hrepReads _ (by simp)) hpanic
      obtain ⟨e, he, hshows⟩ := hshown _ hmem
      cases hshows with
      | get =>
          cases loaded with
          | none => cases hentry
          | some item =>
              have hitem : item ∈ (s.foretell d.tag initial).items a.table.versions := by
                simpa [System.Serves] using serves_of_mem htable hmem
              have hlength := hlineage.length_recent_lt hfits item hitem
              exact .late he (ofAttributes_attributes _ _ hlength) hreads
                (List.mem_map_of_mem (f := Visitor.ofStored) hentry) hlater

/-- A visit that fails because the client reports a timeout. -/
theorem failures_explained_oneError :
    ∃ s, Run (ServiceStep twoRequests) (twoRequests.start 1690000100000000000)
        [.fail .second (.message "timeout"), .readClock .second, .readClock .second] s ∧
      s.handler .second = .done (.error (.stopped (.error (.message "timeout")))) ∧
      FailsBy twoRequests "default"
        [.fail .second (.message "timeout"), .readClock .second, .readClock .second] s .second
        (.stopped (.error (.message "timeout"))) := by
  obtain ⟨s, run, hfailed⟩ : ∃ s, Run (ServiceStep twoRequests)
      (twoRequests.start 1690000100000000000)
      [.fail .second (.message "timeout"), .readClock .second, .readClock .second] s ∧
      s.handler .second = .done (.error (.stopped (.error (.message "timeout")))) :=
    ⟨_, run_of_exec (fun _ _ _ => serviceStep_sound) rfl, rfl⟩
  have hitems : twoRequests.items "default" =
      Option.map (StoredItem.attributes Ciborium.reference "default") none := rfl
  have hvisits : twoRequests.Visits .second "default" := ⟨⟨_, rfl⟩, rfl, by decide⟩
  obtain ⟨-, hcauses⟩ :=
    failures_explained (by unfold Representable; decide) run hitems fun _ h => nomatch h
  exact ⟨s, run, hfailed, hcauses .second _ hvisits hfailed⟩

end Failures

end VisitorCounter

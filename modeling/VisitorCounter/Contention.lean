import VisitorCounter.Ledger

/-!
# Retries are used up by contention only

An attempt fails only if another invocation created the item or counted a new
visitor between the attempt's get and its put.  The windows between get and put
of one invocation are disjoint and every invocation has one applied put, so that
each failed attempt is charged to an invocation of its own.

## Main Definitions

* `FaultlessStep`: the steps with consistent gets, truthful puts and no errors
* `countedPuts`: the authors of the counted puts among some events
* `Window`, `Charged`, `Beaten`: what an attempt and its predecessors have seen

## Main Results

* `Window.exists_countedPut`: an attempt that fails has seen a counted put
* `contended_run`: after `n` failed attempts `n` counted puts have been seen
* `countedPuts_eq_newVisitorPuts`: they are creations and new-visitor puts
* `nodup_countedPuts`: the counted puts of a run are by distinct invocations

## Design Notes

The event of a get stands for the instant at which its reply is the latest
version.  What happens until the reply arrives comes after it in the trace, and
the invocation does nothing in the meantime.
-/

namespace VisitorCounter

open Runs

variable {ι : Type} {sys : System ι}

/-! ### Counted puts -/

/-- The authors of the counted puts among some events. -/
def countedPuts (events : List (Event ι)) : List ι :=
  events.filterMap fun e => match e with
    | .put i request true => if request.counts then some i else none
    | _ => none

@[simp] theorem countedPuts_append (later earlier : List (Event ι)) :
    countedPuts (later ++ earlier) = countedPuts later ++ countedPuts earlier :=
  List.filterMap_append

variable [DecidableEq ι]

/-- A step with consistent gets, truthful puts and no error of the client. -/
def FaultlessStep (sys : System ι) (s : State ι) (e : Event ι) (s' : State ι) : Prop :=
  Step sys s e s' ∧ Faultless sys s e

theorem FaultlessStep.run_truthful {s₀ s : State ι} {trace : List (Event ι)}
    (run : Run (FaultlessStep sys) s₀ trace s) : Run (TruthfulStep sys) s₀ trace s :=
  run.mono fun _ _ _ h => ⟨h.1, h.2.truthful⟩

omit [DecidableEq ι] in
/-- The counted put of an event is the one that it applies, unless it delivers a put again. -/
theorem countedPuts_singleton {s : State ι} {e : Event ι} (htruthful : Truthful s e) :
    countedPuts [e] = (counted e.applies.toList).map Version.author := by
  cases e with
  | get => rfl
  | put i request applied =>
      cases applied with
      | false => rfl
      | true => cases hcounts : request.counts <;> simp [countedPuts, Event.applies, hcounts]
  | putAgain => exact htruthful.elim
  | reply => rfl
  | fail => rfl

/-- The counted puts of a trace are the counted versions. -/
theorem countedPuts_eq {trace : List (Event ι)} {s : State ι}
    (run : Run (TruthfulStep sys) sys.start trace s) :
    countedPuts trace = (counted s.versions).map Version.author := by
  refine run.invariant_trace (P := fun trace s =>
    countedPuts trace = (counted s.versions).map Version.author) rfl ?_
  rintro trace s e s' - ih ⟨hstep, htruthful⟩
  rw [hstep.versions_eq, counted, List.filter_append, List.map_append, ← ih,
    ← countedPuts_singleton htruthful, ← countedPuts_append]
  rfl

/-- The creations and new-visitor puts of a trace, part by part. -/
theorem newVisitorPuts_append (before later earlier : List (Event ι)) :
    newVisitorPuts sys before (later ++ earlier) =
      newVisitorPuts sys (earlier ++ before) later ++ newVisitorPuts sys before earlier := by
  induction later with
  | nil => rfl
  | cons e later ih =>
      cases e with
      | put i request applied =>
          cases applied with
          | false => exact ih
          | true =>
              simp only [List.cons_append, newVisitorPuts, ih, List.append_assoc]
              split <;> rfl
      | get => exact ih
      | putAgain => exact ih
      | reply => exact ih
      | fail => exact ih

/-- A creation or new-visitor put is an applied put. -/
theorem put_mem_of_mem_newVisitorPuts {before events : List (Event ι)} {v : Version ι}
    (h : v ∈ newVisitorPuts sys before events) : .put v.author v.request true ∈ events := by
  induction events with
  | nil => cases h
  | cons e events ih =>
      cases e with
      | put i request applied =>
          cases applied with
          | false => exact List.mem_cons_of_mem _ (ih h)
          | true =>
              rw [newVisitorPuts] at h
              split at h
              · rcases List.mem_cons.mp h with rfl | h
                · exact List.mem_cons_self
                · exact List.mem_cons_of_mem _ (ih h)
              · exact List.mem_cons_of_mem _ (ih h)
      | get => exact List.mem_cons_of_mem _ (ih h)
      | putAgain => exact List.mem_cons_of_mem _ (ih h)
      | reply => exact List.mem_cons_of_mem _ (ih h)
      | fail => exact List.mem_cons_of_mem _ (ih h)

/-- **The counted puts of a part of a run are its creations and new-visitor puts.** -/
theorem countedPuts_eq_newVisitorPuts {later earlier : List (Event ι)} {s : State ι}
    (run : Run (TruthfulStep sys) sys.start (later ++ earlier) s) :
    countedPuts later = (newVisitorPuts sys earlier later).map Version.author := by
  obtain ⟨mid, before, -⟩ := run.split
  have hall := countedPuts_eq run
  have hearlier := countedPuts_eq before
  rw [← newVisitorPuts_eq run, newVisitorPuts_append, List.append_nil, List.map_append,
    newVisitorPuts_eq before, ← hearlier, countedPuts_append] at hall
  exact List.append_cancel_right hall

/-- **The counted puts of a run are by distinct invocations.** -/
theorem nodup_countedPuts {trace : List (Event ι)} {s : State ι}
    (run : Run (TruthfulStep sys) sys.start trace s) : (countedPuts trace).Nodup := by
  rw [countedPuts_eq run]
  refine (List.filter_sublist.map Version.author).nodup ?_
  rw [List.nodup_iff_count_le_one]
  intro i
  have hown : (s.versions.map Version.author).count i = (s.own i).length := by
    rw [List.count, List.countP_map, List.countP_eq_length_filter]
    rfl
  rw [hown]
  exact (accounted_run run i).length_le

/-- Without a counted put the current count stays. -/
theorem Step.count_current_eq {s s' : State ι} {e : Event ι} (hstep : Step sys s e s')
    (htruthful : Truthful s e) (hcoherent : Coherent sys s) (hnone : countedPuts [e] = []) :
    (sys.current s'.versions).map StoredItem.count =
      (sys.current s.versions).map StoredItem.count := by
  rw [countedPuts_singleton htruthful, List.map_eq_nil_iff] at hnone
  rw [hstep.versions_eq]
  cases hv : e.applies with
  | none => rfl
  | some v =>
      obtain ⟨hway, hholds⟩ := hstep.of_applies hv
      obtain ⟨loaded, hprep⟩ := hcoherent.exists_prepared hway
      have hcounts : v.request.counts = false := by simpa [counted, hv] using hnone
      exact (hprep.count_current_eq hholds hcounts).symm

/-! ### What the attempts of an invocation have seen -/

section Windows

variable {i : ι} {n m : ℕ} {events later : List (Event ι)} {loaded : Option StoredItem}
  {request : PutRequest}

/-- Since the first get of an invocation at least `n` counted puts were applied. -/
def Charged (i : ι) (n : ℕ) (events : List (Event ι)) : Prop :=
  ∃ between loaded earlier, events = between ++ .get i loaded :: earlier ∧
    (∀ other, .get i other ∉ earlier) ∧ n ≤ (countedPuts between).length

/-- Between the first get and the last put of an invocation, whose condition
failed, at least `n` counted puts were applied. -/
def Beaten (i : ι) (n : ℕ) (trace : List (Event ι)) : Prop :=
  ∃ later request earlier, trace = later ++ .put i request false :: earlier ∧
    (∀ other applied, .put i other applied ∉ later) ∧ Charged i n earlier

/-- The last get of an invocation returned `loaded`, at least `n` counted puts
were applied before it, and without a counted put since then the count is still
the one that was loaded. -/
def Window (sys : System ι) (versions : List (Version ι)) (i : ι) (loaded : Option StoredItem)
    (n : ℕ) (trace : List (Event ι)) : Prop :=
  ∃ between earlier, trace = between ++ .get i loaded :: earlier ∧
    (∀ other, .get i other ∉ between) ∧ Charged i n (.get i loaded :: earlier) ∧
    (countedPuts between = [] →
      (sys.current versions).map StoredItem.count = loaded.map StoredItem.count)

omit [DecidableEq ι]

theorem Charged.mono (h : Charged i m events) (hle : n ≤ m) : Charged i n events := by
  obtain ⟨between, loaded, earlier, hsplit, hfirst, hcount⟩ := h
  exact ⟨between, loaded, earlier, hsplit, hfirst, hle.trans hcount⟩

theorem Charged.append (h : Charged i n events) (later : List (Event ι)) :
    Charged i (n + (countedPuts later).length) (later ++ events) := by
  obtain ⟨between, loaded, earlier, rfl, hfirst, hcount⟩ := h
  refine ⟨later ++ between, loaded, earlier, (List.append_assoc _ _ _).symm, hfirst, ?_⟩
  rw [countedPuts_append, List.length_append]
  omega

/-- The first get of an invocation is charged with nothing. -/
theorem charged_first (h : ∀ other, .get i other ∉ events) :
    Charged i 0 (.get i loaded :: events) :=
  ⟨[], loaded, events, rfl, h, Nat.zero_le _⟩

theorem Beaten.mono (h : Beaten i m events) (hle : n ≤ m) : Beaten i n events := by
  obtain ⟨later, request, earlier, hsplit, hlast, hcharged⟩ := h
  exact ⟨later, request, earlier, hsplit, hlast, hcharged.mono hle⟩

theorem Beaten.cons (h : Beaten i n events) {e : Event ι}
    (he : ∀ other applied, e ≠ .put i other applied) : Beaten i n (e :: events) := by
  obtain ⟨later, request, earlier, rfl, hlast, hcharged⟩ := h
  refine ⟨e :: later, request, earlier, rfl, fun other applied hmem => ?_, hcharged⟩
  rcases List.mem_cons.mp hmem with rfl | hmem
  · exact he other applied rfl
  · exact hlast other applied hmem

/-- A later get is charged with the puts that beat the attempts before it. -/
theorem Beaten.charged_get (h : Beaten i n events) : Charged i n (.get i loaded :: events) := by
  obtain ⟨later, request, earlier, rfl, -, hcharged⟩ := h
  have happend := hcharged.append (.get i loaded :: later ++ [.put i request false])
  rw [List.append_assoc] at happend
  exact happend.mono (Nat.le_add_right _ _)

/-- **An attempt that fails has seen a counted put.** -/
theorem Window.exists_countedPut {versions : List (Version ι)} {trace : List (Event ι)}
    (h : Window sys versions i loaded n trace) (hprep : Prepared sys versions ⟨i, request⟩ loaded)
    (hholds : request.holds (sys.current versions) = false) :
    ∃ between earlier, trace = between ++ .get i loaded :: earlier ∧
      (∀ other, .get i other ∉ between) ∧ Charged i n (.get i loaded :: earlier) ∧
      countedPuts between ≠ [] := by
  obtain ⟨between, earlier, hsplit, hlast, hcharged, hsame⟩ := h
  refine ⟨between, earlier, hsplit, hlast, hcharged, fun hnone => ?_⟩
  have hcount := hsame hnone
  have hfails : request.holds (sys.current versions) ≠ true := by simp [hholds]
  rcases hprep.cases with ⟨rfl, -, hrequest⟩ | ⟨item, -, rfl, hupdate⟩
  · rw [Option.map_none, Option.map_eq_none_iff] at hcount
    dsimp only at hrequest
    rw [hrequest] at hfails
    exact hfails (PutRequest.holds_none_left.mpr hcount)
  · obtain ⟨cur, hcur, hsame⟩ := Option.map_eq_some_iff.mp hcount
    rcases hupdate with hrefresh | hpush
    · exact hfails (hrefresh.written.holds_iff.mpr ⟨cur, hcur, hsame⟩)
    · exact hfails (hpush.written.holds_iff.mpr ⟨cur, hcur, hsame⟩)

end Windows

/-- What an invocation has seen, by its phase. -/
def Contended (sys : System ι) (trace : List (Event ι)) (s : State ι) (i : ι) : Phase → Prop
  | .get attempt =>
      if attempt = 0 then ∀ other, .get i other ∉ trace else Beaten i attempt trace
  | .put attempt loaded _ replies =>
      (replies = [] → Window sys s.versions i loaded attempt trace) ∧
        (false ∈ replies → Beaten i (attempt + 1) trace)
  | .done (.error _) => Beaten i maxAttemptsForOptimisticLocking trace
  | .done _ => True

/-- A step of another invocation. -/
theorem Contended.of_ne {trace : List (Event ι)} {s s' : State ι} {e : Event ι} {i : ι}
    {phase : Phase} (h : Contended sys trace s i phase) (hstep : Step sys s e s')
    (htruthful : Truthful s e) (hcoherent : Coherent sys s) (hi : i ≠ e.id) :
    Contended sys (e :: trace) s' i phase := by
  have hput : ∀ other applied, e ≠ .put i other applied := fun _ _ he => hi (by rw [he]; rfl)
  have hget : ∀ other, e ≠ .get i other := fun _ he => hi (by rw [he]; rfl)
  have notMem : ∀ l : List (Event ι), (∀ other, .get i other ∉ l) →
      ∀ other, .get i other ∉ e :: l := by
    intro l hl other hmem
    rcases List.mem_cons.mp hmem with he | hmem
    · exact hget other he.symm
    · exact hl other hmem
  unfold Contended at *
  split at h
  · split at h
    · rename_i hzero
      rw [if_pos hzero]
      exact notMem _ h
    · rename_i hzero
      rw [if_neg hzero]
      exact h.cons hput
  · refine ⟨fun hreplies => ?_, fun hreply => (h.2 hreply).cons hput⟩
    obtain ⟨between, earlier, rfl, hlast, hcharged, hsame⟩ := h.1 hreplies
    refine ⟨e :: between, earlier, rfl, notMem _ hlast, hcharged, fun hnone => ?_⟩
    have hsplit : countedPuts [e] ++ countedPuts between = [] := by
      rw [← countedPuts_append]
      exact hnone
    obtain ⟨he, hbetween⟩ := List.append_eq_nil_iff.mp hsplit
    rw [hstep.count_current_eq htruthful hcoherent he]
    exact hsame hbetween
  · exact h.cons hput
  · trivial

/-- **A step keeps what every invocation has seen.** -/
theorem contended_step {trace : List (Event ι)} {s s' : State ι} {e : Event ι}
    (hcoherent : Coherent sys s) (hstep : FaultlessStep sys s e s')
    (h : ∀ i, Contended sys trace s i (s.phase i)) (i : ι) :
    Contended sys (e :: trace) s' i (s'.phase i) := by
  obtain ⟨hstep, hfaultless⟩ := hstep
  have hold := h i
  refine hstep.phase_rule (P := Contended sys (e :: trace) s' i) i
    ?others ?get ?put ?putAgain ?reply ?fail
  case others => exact fun hi => hold.of_ne hstep hfaultless.truthful hcoherent hi
  case get =>
    rintro attempt loaded rfl hphase -
    rw [hphase] at hold
    -- The first get starts the account, a later one takes over what beat it so far.
    have hcharged : Charged i attempt (.get i loaded :: trace) := by
      simp only [Contended] at hold
      split at hold
      · rename_i hzero
        rw [hzero]
        exact charged_first hold
      · exact hold.charged_get
    rw [afterGet]
    split
    · refine ⟨fun _ => ⟨[], trace, rfl, fun _ => List.not_mem_nil, hcharged, fun _ => ?_⟩,
        fun hreply => absurd hreply List.not_mem_nil⟩
      rw [hstep.versions_eq, show loaded = _ from hfaultless]
      rfl
    · trivial
  case put =>
    rintro attempt loaded request replies applied rfl hphase happlied
    rw [hphase] at hold
    refine ⟨fun hreplies => (List.cons_ne_nil _ _ hreplies).elim, fun hreply => ?_⟩
    have hreplies : replies = [] := by
      simpa [Faultless, State.replies, hphase] using hfaultless
    subst hreplies
    obtain rfl := List.mem_singleton.mp hreply
    -- The put failed: its window has a counted put, which is one more charge.
    obtain ⟨between, earlier, rfl, -, hcharged, hne⟩ :=
      (hold.1 rfl).exists_countedPut (hcoherent.waiting i _ _ _ _ hphase) happlied.symm
    refine ⟨[], request, _, rfl, fun _ _ => List.not_mem_nil, (hcharged.append between).mono ?_⟩
    have hpos := List.length_pos_iff.mpr hne
    omega
  case putAgain =>
    rintro request applied rfl
    exact hfaultless.elim
  case reply =>
    rintro attempt loaded request replies applied rfl hphase hreply
    rw [hphase] at hold
    rw [afterReply]
    cases applied with
    | true => trivial
    | false =>
        have hbeaten : Beaten i (attempt + 1) (.reply i false :: trace) :=
          (hold.2 hreply).cons (by simp)
        rw [if_neg (by simp), loop]
        split
        · simpa only [Contended, Nat.add_eq_zero_iff, one_ne_zero, and_false, if_false]
            using hbeaten
        · exact hbeaten.mono (by omega)
  case fail =>
    rintro error rfl -
    exact hfaultless.elim

/-- **What every invocation has seen in a run.** -/
theorem contended_run {trace : List (Event ι)} {s : State ι}
    (run : Run (FaultlessStep sys) sys.start trace s) (i : ι) :
    Contended sys trace s i (s.phase i) := by
  refine run.invariant_trace (P := fun trace s => ∀ i, Contended sys trace s i (s.phase i)) ?_ ?_ i
  · intro i
    exact fun _ => List.not_mem_nil
  · intro trace s e s' hbefore ih hstep
    have hcoherent := Coherent.run (TruthfulStep.run_step (FaultlessStep.run_truthful hbefore))
    exact contended_step hcoherent hstep ih

/-! ### The retry budget -/

section Budget

variable {trace : List (Event ι)} {s : State ι} {i j : ι}

/-- An invocation without an applied put is the author of no counted put. -/
theorem notMem_countedPuts (run : Run (TruthfulStep sys) sys.start trace s)
    (hown : s.own i = []) : i ∉ countedPuts trace := by
  rw [countedPuts_eq run]
  intro hmem
  obtain ⟨v, hv, hauthor⟩ := List.mem_map.mp hmem
  have hmem : v ∈ s.own i :=
    List.mem_filter.mpr ⟨List.mem_of_mem_filter hv, decide_eq_true hauthor⟩
  rw [hown] at hmem
  cases hmem

/-- An invocation without an event has not started. -/
theorem phase_of_forall_id_ne (run : Run (Step sys) sys.start trace s)
    (h : ∀ e ∈ trace, e.id ≠ j) : s.phase j = .get 0 := by
  refine run.invariant_trace (P := fun trace s => (∀ e ∈ trace, e.id ≠ j) → s.phase j = .get 0)
    (fun _ => rfl) ?_ h
  rintro trace s e s' - ih hstep hne
  obtain ⟨he, htrace⟩ := List.forall_mem_cons.mp hne
  rw [hstep.phase_eq_of_ne he.symm]
  exact ih htrace

/-- Before each of its puts an invocation had an event. -/
theorem exists_event_before_put {later earlier : List (Event ι)} {request : PutRequest}
    {applied : Bool} (run : Run (Step sys) sys.start trace s)
    (hsplit : trace = later ++ .put j request applied :: earlier) : ∃ e ∈ earlier, e.id = j := by
  subst hsplit
  obtain ⟨mid, hfirst, -⟩ := run.split
  obtain ⟨before, hbefore, hstep⟩ := hfirst.of_cons
  by_contra hnone
  have hphase := phase_of_forall_id_ne hbefore fun e he hid => hnone ⟨e, he, hid⟩
  cases hstep with
  | put hput =>
      rw [hphase] at hput
      cases hput

/-- At some instant both invocations are under way: each has events before and after it. -/
def Overlap (trace : List (Event ι)) (i j : ι) : Prop :=
  ∃ later earlier, trace = later ++ earlier ∧
    ((∃ e ∈ later, e.id = i) ∧ ∃ e ∈ earlier, e.id = i) ∧
      (∃ e ∈ later, e.id = j) ∧ ∃ e ∈ earlier, e.id = j

/-- An invocation with a put between two events of another overlaps with it. -/
theorem overlap_of_put {later between earlier : List (Event ι)} {first last : Event ι}
    {request : PutRequest} {applied : Bool} (run : Run (Step sys) sys.start trace s)
    (hsplit : trace = later ++ last :: (between ++ first :: earlier)) (hfirst : first.id = i)
    (hlast : last.id = i) (hmem : .put j request applied ∈ between) : Overlap trace i j := by
  obtain ⟨newer, older, rfl⟩ := List.append_of_mem hmem
  have hput : trace = (later ++ last :: newer) ++ .put j request applied ::
      (older ++ first :: earlier) := by
    simpa using hsplit
  obtain ⟨e, he, hid⟩ := exists_event_before_put run hput
  rcases List.mem_append.mp he with holder | hearlier
  · -- The earlier event lies between the two: split right after it.
    obtain ⟨after, before, rfl⟩ := List.append_of_mem holder
    refine ⟨later ++ last :: newer ++ .put j request applied :: after,
      e :: before ++ first :: earlier, by simpa using hsplit,
      ⟨⟨last, by simp, hlast⟩, ⟨first, by simp, hfirst⟩⟩,
      ⟨.put j request applied, by simp, rfl⟩, ⟨e, by simp, hid⟩⟩
  · -- Otherwise split right after the first event of the other.
    refine ⟨later ++ last :: newer ++ .put j request applied :: older, first :: earlier,
      by simpa using hsplit, ⟨⟨last, by simp, hlast⟩, ⟨first, by simp, hfirst⟩⟩,
      ⟨.put j request applied, by simp, rfl⟩, ⟨e, hearlier, hid⟩⟩

/-- The author of a counted put has a creation or a new-visitor put. -/
theorem exists_newVisitorPut {later between earlier : List (Event ι)} {e : Event ι}
    (run : Run (TruthfulStep sys) sys.start (later ++ e :: (between ++ earlier)) s)
    (hj : j ∈ countedPuts between) :
    ∃ counting, ⟨j, counting⟩ ∈ newVisitorPuts sys earlier between := by
  obtain ⟨mid, first, -⟩ := run.split
  obtain ⟨before, hbefore, -⟩ := first.of_cons
  rw [countedPuts_eq_newVisitorPuts hbefore] at hj
  obtain ⟨⟨_, counting⟩, hmem, rfl⟩ := List.mem_map.mp hj
  exact ⟨counting, hmem⟩

/-- An invocation that gave up saw a counted put of a different invocation for each attempt. -/
theorem exists_others_of_error (run : Run (FaultlessStep sys) sys.start trace s)
    {error : BoxError} (hphase : s.phase i = .done (.error error)) :
    ∃ later request between loaded earlier,
      trace = later ++ .put i request false :: (between ++ .get i loaded :: earlier) ∧
      (∀ other applied, .put i other applied ∉ later) ∧ (∀ other, .get i other ∉ earlier) ∧
      ∃ others : Finset ι, maxAttemptsForOptimisticLocking ≤ others.card ∧ i ∉ others ∧
        ∀ j ∈ others, ∃ counting,
          ⟨j, counting⟩ ∈ newVisitorPuts sys (.get i loaded :: earlier) between := by
  have htruthful := FaultlessStep.run_truthful run
  have hbeaten := contended_run run i
  have hown := accounted_run htruthful i
  rw [hphase] at hbeaten hown
  obtain ⟨later, request, _, hsplit, hlast, between, loaded, earlier, rfl, hfirst, hcount⟩ :=
    hbeaten
  have hsub : (countedPuts between).Sublist (countedPuts trace) := by
    rw [hsplit, countedPuts, countedPuts]
    refine List.Sublist.filterMap _ (List.Sublist.trans ?_ (List.sublist_append_right _ _))
    exact (List.sublist_append_left _ _).trans (List.sublist_cons_self _ _)
  refine ⟨later, request, between, loaded, earlier, hsplit, hlast, hfirst,
    (countedPuts between).toFinset, ?_, ?_, ?_⟩
  · rwa [List.toFinset_card_of_nodup (hsub.nodup (nodup_countedPuts htruthful))]
  · rw [List.mem_toFinset]
    exact fun hmem => notMem_countedPuts htruthful hown (hsub.subset hmem)
  · intro j hj
    exact exists_newVisitorPut (hsplit ▸ htruthful) (List.mem_toFinset.mp hj)

/-- A put whose condition failed lost to a counted put of another invocation. -/
theorem exists_other_of_failed_put (run : Run (FaultlessStep sys) sys.start trace s)
    {later earlier : List (Event ι)} {request : PutRequest}
    (hsplit : trace = later ++ .put i request false :: earlier) :
    ∃ between loaded before, earlier = between ++ .get i loaded :: before ∧
      (∀ other, .get i other ∉ between) ∧
      ∃ j, j ≠ i ∧ ∃ counting,
        ⟨j, counting⟩ ∈ newVisitorPuts sys (.get i loaded :: before) between := by
  have hall := FaultlessStep.run_truthful run
  subst hsplit
  obtain ⟨mid, hfirst, -⟩ := run.split
  obtain ⟨state, hrun, hstep, hfaultless⟩ := hfirst.of_cons
  have htruthful := FaultlessStep.run_truthful hrun
  cases hstep with
  | @put _ attempt loaded _ replies _ hphase hfails =>
      have hreplies : replies = [] := by
        simpa [Faultless, State.replies, hphase] using hfaultless
      subst hreplies
      have hcontended := contended_run hrun i
      have hown := accounted_run htruthful i
      rw [hphase] at hcontended hown
      have hprep := (Coherent.run (TruthfulStep.run_step htruthful)).waiting i _ _ _ _ hphase
      obtain ⟨between, before, rfl, hlast, -, hne⟩ :=
        (hcontended.1 rfl).exists_countedPut hprep hfails.symm
      obtain ⟨j, hj⟩ := List.exists_mem_of_ne_nil _ hne
      refine ⟨between, loaded, before, rfl, hlast, j, ?_, exists_newVisitorPut hall hj⟩
      rintro rfl
      have hnone : state.own j = [] := by simpa [Accounted] using hown
      refine notMem_countedPuts htruthful hnone ?_
      rw [countedPuts_append]
      exact List.mem_append_left _ hj

omit [DecidableEq ι] in
/-- The last get of an invocation is one only. -/
theorem last_get_unique {between between' before before' : List (Event ι)}
    {loaded loaded' : Option StoredItem}
    (h : between ++ .get i loaded :: before = between' ++ .get i loaded' :: before')
    (hlast : ∀ other, .get i other ∉ between) (hlast' : ∀ other, .get i other ∉ between') :
    between = between' ∧ loaded = loaded' ∧ before = before' := by
  induction between generalizing between' with
  | nil =>
      cases between' with
      | nil =>
          obtain ⟨hget, hbefore⟩ := List.cons.inj h
          exact ⟨rfl, (Event.get.inj hget).2, hbefore⟩
      | cons e between' =>
          obtain ⟨rfl, -⟩ := List.cons.inj h
          exact absurd List.mem_cons_self (hlast' loaded)
  | cons e between ih =>
      cases between' with
      | nil =>
          obtain ⟨rfl, -⟩ := List.cons.inj h
          exact absurd List.mem_cons_self (hlast loaded')
      | cons e' between' =>
          obtain ⟨rfl, htail⟩ := List.cons.inj h
          obtain ⟨rfl, hsame⟩ := ih htail
            (fun other hmem => hlast other (List.mem_cons_of_mem _ hmem))
            fun other hmem => hlast' other (List.mem_cons_of_mem _ hmem)
          exact ⟨rfl, hsame⟩

/-- A put is applied when only refreshes were applied since the get it was prepared from. -/
theorem applied_of_no_newVisitorPut (run : Run (FaultlessStep sys) sys.start trace s)
    {later between before : List (Event ι)} {loaded : Option StoredItem} {request : PutRequest}
    {applied : Bool}
    (hsplit : trace = later ++ .put i request applied :: (between ++ .get i loaded :: before))
    (hlast : ∀ other, .get i other ∉ between)
    (hnone : newVisitorPuts sys (.get i loaded :: before) between = []) : applied = true := by
  cases applied with
  | true => rfl
  | false =>
      obtain ⟨between', loaded', before', hsame, hlast', j, -, counting, hmem⟩ :=
        exists_other_of_failed_put run hsplit
      obtain ⟨rfl, rfl, rfl⟩ := last_get_unique hsame hlast hlast'
      rw [hnone] at hmem
      cases hmem

end Budget

/-- **The retry budget is exhausted by contention only.**  With consistent gets,
truthful puts and no error of the client, an invocation gives up only if as many
other, distinct invocations as it had attempts had a creation or a new-visitor put
applied between its first get and its last put.  Each failed put lost to such a put
of another invocation since its get; when only refreshes were applied since then, the
put is applied.  With no more overlapping invocations than attempts nobody gives up. -/
theorem retries_exhausted_by_contention {sys : System ι} {trace : List (Event ι)} {s : State ι}
    (run : Run (FaultlessStep sys) sys.start trace s) :
    (∀ i, s.phase i = .done (.error maxAttemptsExceeded) →
      ∃ later request between loaded earlier,
        trace = later ++ .put i request false :: (between ++ .get i loaded :: earlier) ∧
        (∀ other applied, .put i other applied ∉ later) ∧ (∀ other, .get i other ∉ earlier) ∧
        ∃ others : Finset ι, maxAttemptsForOptimisticLocking ≤ others.card ∧ i ∉ others ∧
          ∀ j ∈ others, ∃ counting,
            ⟨j, counting⟩ ∈ newVisitorPuts sys (.get i loaded :: earlier) between) ∧
    (∀ i later request earlier, trace = later ++ .put i request false :: earlier →
      ∃ between loaded before, earlier = between ++ .get i loaded :: before ∧
        (∀ other, .get i other ∉ between) ∧
        ∃ j, j ≠ i ∧ ∃ counting,
          ⟨j, counting⟩ ∈ newVisitorPuts sys (.get i loaded :: before) between) ∧
    (∀ i later request applied between loaded before,
      trace = later ++ .put i request applied :: (between ++ .get i loaded :: before) →
      (∀ other, .get i other ∉ between) →
      newVisitorPuts sys (.get i loaded :: before) between = [] → applied = true) ∧
    ∀ i (overlapping : Finset ι), overlapping.card ≤ maxAttemptsForOptimisticLocking →
      (∀ j, Overlap trace i j → j ∈ overlapping) →
        s.phase i ≠ .done (.error maxAttemptsExceeded) := by
  refine ⟨fun i hphase => exists_others_of_error run hphase,
    fun i later request earlier hsplit => exists_other_of_failed_put run hsplit,
    fun i later request applied between loaded before hsplit hlast hnone =>
      applied_of_no_newVisitorPut run hsplit hlast hnone, ?_⟩
  intro i overlapping hcard hall hphase
  obtain ⟨later, request, between, loaded, earlier, hsplit, -, -, others, hmany, hself, hothers⟩ :=
    exists_others_of_error run hphase
  have hrun := TruthfulStep.run_step (FaultlessStep.run_truthful run)
  have hi : i ∈ overlapping := hall i
    ⟨later ++ .put i request false :: between, .get i loaded :: earlier, by simpa using hsplit,
      ⟨⟨.put i request false, by simp, rfl⟩, ⟨.get i loaded, List.mem_cons_self, rfl⟩⟩,
      ⟨⟨.put i request false, by simp, rfl⟩, ⟨.get i loaded, List.mem_cons_self, rfl⟩⟩⟩
  have hsub : insert i others ⊆ overlapping := by
    refine Finset.insert_subset hi fun j hj => ?_
    obtain ⟨counting, hmem⟩ := hothers j hj
    have hput := put_mem_of_mem_newVisitorPuts hmem
    exact hall j (overlap_of_put hrun hsplit rfl rfl hput)
  have hle := Finset.card_le_card hsub
  rw [Finset.card_insert_of_notMem hself] at hle
  omega

/-- Six first-time visitors on a counter without an item. -/
def rivals : System (Fin 6) where
  calls i := ⟨⟨UInt32.ofNat i, 1_690_000_100_000_000_000⟩, 1_690_000_100_000_000_000⟩
  initial := none

/-- The item after the visits of the rivals `1 .. n`. -/
def rivals.item (n : ℕ) : StoredItem :=
  ⟨UInt64.ofNat n, ⟨(List.range' 1 n).map fun tag => ⟨UInt32.ofNat tag, 100⟩⟩⟩

/-- Rival `0` gets the item after `n` visits, and loses it to rival `n + 1`. -/
def rivals.round (n : ℕ) : List (Event (Fin 6)) :=
  let expected : Option UInt64 := if n = 0 then none else some (UInt64.ofNat n)
  let loaded : Option StoredItem := if n = 0 then none else some (rivals.item n)
  let mine : StoredItem := ⟨UInt64.ofNat (n + 1), ⟨(rivals.item n).recent ++ [⟨0, 100⟩]⟩⟩
  [.reply 0 false, .put 0 ⟨expected, mine⟩ false,
    .put (Fin.ofNat 6 (n + 1)) ⟨expected, rivals.item (n + 1)⟩ true,
    .get (Fin.ofNat 6 (n + 1)) loaded, .get 0 loaded]

/-- Five rounds. -/
def rivals.rounds : List (Event (Fin 6)) :=
  rivals.round 4 ++ rivals.round 3 ++ rivals.round 2 ++ rivals.round 1 ++ rivals.round 0

/-- Five rounds lost in a row exhaust the budget of rival `0`, to the creation and the
new-visitor puts of the five others. -/
theorem retries_exhausted_by_contention_rivals :
    ∃ s, Run (FaultlessStep rivals) rivals.start rivals.rounds s ∧
      s.phase 0 = .done (.error maxAttemptsExceeded) ∧
      (newVisitorPuts rivals [] rivals.rounds).map Version.author = [5, 4, 3, 2, 1] ∧
      ∃ later request between loaded earlier,
        rivals.rounds = later ++ .put 0 request false :: (between ++ .get 0 loaded :: earlier) ∧
        ∃ others : Finset (Fin 6), 5 ≤ others.card ∧ 0 ∉ others ∧ ∀ j ∈ others, ∃ counting,
          ⟨j, counting⟩ ∈ newVisitorPuts rivals (.get 0 loaded :: earlier) between := by
  have run : Run (FaultlessStep rivals) rivals.start rivals.rounds _ :=
    run_of_exec_guarded (fun _ _ _ => step_sound) rfl
  obtain ⟨later, request, between, loaded, earlier, hsplit, -, -, hothers⟩ :=
    (retries_exhausted_by_contention run).1 0 rfl
  exact ⟨_, run, rfl, rfl, later, request, between, loaded, earlier, hsplit, hothers⟩

end VisitorCounter

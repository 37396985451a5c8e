import VisitorCounter.Ledger

/-!
# Handlers on one clock

`function_handler` reads the clock for `visitor.last_seen`, then for `now`, and
then calls the store, which keeps that `now` for all its attempts.  Another
handler that reads the clock a second later can have its put applied first, and
then the pruning of the first one meets an entry that is later than its `now` and
panics.

## Main Definitions

* `Stage`, `Handlers`, `HandlerStep`: the handlers, their clock and the table
* `handle`: the steps as a computation
* `System.recordedTime`: the time that an applied put recorded for its visitor
* `Timely`: a get that returns no version put under a time in a later second

## Main Results

* `handler_panics`: a run that ends in the panic
* `Lineage.recorded`: every entry of a version was recorded by a put of its history
* `no_panic_of_timely`: with timely gets no loaded entry is later than `now`
-/

namespace VisitorCounter

open Runs

variable {ι : Type}

/-- How far a handler is: whether it has read the clock once or twice. -/
inductive Stage where
  | arrived
  | sawVisitor
  | ready
deriving DecidableEq, Repr

/-- The clock, the handlers, and the table with the invocations of the store. -/
structure Handlers (ι : Type) where
  clock : ℤ
  stage : ι → Stage
  table : State ι

/-- What can happen next. -/
inductive HandlerEvent (ι : Type) where
  /-- The clock moves on. -/
  | tick (t : ℤ)
  /-- A handler reads the clock for `visitor.last_seen`. -/
  | readLastSeen (i : ι)
  /-- A handler reads the clock for `now`. -/
  | readNow (i : ι)
  /-- A step of the table and the invocation of a handler. -/
  | act (e : Event ι)
deriving DecidableEq, Repr

/-- No handler has read the clock. -/
def System.arrive (sys : System ι) (clock : ℤ) : Handlers ι where
  clock := clock
  stage _ := .arrived
  table := sys.start

section Steps

variable [DecidableEq ι]

/-- A handler moves to a stage. -/
def Handlers.enter (s : Handlers ι) (i : ι) (stage : Stage) : Handlers ι :=
  { s with stage := Function.update s.stage i stage }

/-- One step of the handlers. -/
inductive HandlerStep (sys : System ι) (s : Handlers ι) : HandlerEvent ι → Handlers ι → Prop
  | tick {t : ℤ} (hclock : s.clock ≤ t) (hrep : Representable t) :
      HandlerStep sys s (.tick t) { s with clock := t }
  | readLastSeen {i : ι} (hstage : s.stage i = .arrived)
      (hclock : (sys.calls i).visitor.lastSeen = s.clock) :
      HandlerStep sys s (.readLastSeen i) (s.enter i .sawVisitor)
  | readNow {i : ι} (hstage : s.stage i = .sawVisitor) (hclock : (sys.calls i).now = s.clock) :
      HandlerStep sys s (.readNow i) (s.enter i .ready)
  | act {e : Event ι} {table : State ι} (hstage : s.stage e.id = .ready)
      (hstep : Step sys s.table e table) :
      HandlerStep sys s (.act e) { s with table := table }

/-- One step, as a computation. -/
def handle (sys : System ι) (s : Handlers ι) : HandlerEvent ι → Option (Handlers ι)
  | .tick t => if s.clock ≤ t ∧ Representable t then some { s with clock := t } else none
  | .readLastSeen i =>
      if s.stage i = .arrived ∧ (sys.calls i).visitor.lastSeen = s.clock then
        some (s.enter i .sawVisitor)
      else none
  | .readNow i =>
      if s.stage i = .sawVisitor ∧ (sys.calls i).now = s.clock then some (s.enter i .ready)
      else none
  | .act e =>
      if s.stage e.id = .ready then
        (step sys s.table e).map fun table => { s with table := table }
      else none

/-- The computation takes the steps of the relation. -/
theorem handle_sound {sys : System ι} {s s' : Handlers ι} {e : HandlerEvent ι}
    (h : handle sys s e = some s') : HandlerStep sys s e s' := by
  cases e with
  | tick t =>
      simp only [handle, Option.ite_none_right_eq_some] at h
      obtain ⟨⟨hclock, hrep⟩, h⟩ := h
      obtain rfl := Option.some.inj h
      exact .tick hclock hrep
  | readLastSeen i =>
      simp only [handle, Option.ite_none_right_eq_some] at h
      obtain ⟨⟨hstage, hclock⟩, h⟩ := h
      obtain rfl := Option.some.inj h
      exact .readLastSeen hstage hclock
  | readNow i =>
      simp only [handle, Option.ite_none_right_eq_some] at h
      obtain ⟨⟨hstage, hclock⟩, h⟩ := h
      obtain rfl := Option.some.inj h
      exact .readNow hstage hclock
  | act e =>
      simp only [handle, Option.ite_none_right_eq_some, Option.map_eq_some_iff] at h
      obtain ⟨hstage, table, hstep, rfl⟩ := h
      exact .act hstage (step_sound hstep)

/-! ### A panic -/

/-- Two handlers: one reads the clock at `10.5 s`, the other at `12 s`. -/
def twoHandlers : System (Fin 2) where
  calls i :=
    if i = 0 then ⟨⟨7, 1_690_000_010_500_000_000⟩, 1_690_000_010_500_000_000⟩
    else ⟨⟨8, 1_690_000_012_000_000_000⟩, 1_690_000_012_000_000_000⟩
  initial := none

/-- **A handler panics because of another one.**  The second handler reads the
clock later and is first at the table; the first one then loads an entry that is
later than its `now`. -/
theorem handler_panics :
    ∃ trace s,
      Run (HandlerStep twoHandlers) (twoHandlers.arrive 1_690_000_010_500_000_000) trace s ∧
      s.table.phase 0 = .done (.panicked ⟨"now is after last_seen"⟩) := by
  refine ⟨[.act (.get 0 (some ⟨1, ⟨[⟨8, 12⟩]⟩⟩)), .act (.reply 1 true),
      .act (.put 1 ⟨none, ⟨1, ⟨[⟨8, 12⟩]⟩⟩⟩ true), .act (.get 1 none), .readNow 1,
      .readLastSeen 1, .tick 1_690_000_012_000_000_000, .readNow 0, .readLastSeen 0], _,
    run_of_exec (fun _ _ _ => handle_sound) rfl, rfl⟩

end Steps

/-! ### Timely gets -/

/-- The time that an applied put recorded for its visitor: its `lastSeen` when it
was counted, `now` when it was a refresh. -/
def System.recordedTime (sys : System ι) (v : Version ι) : ℤ :=
  if v.request.counts then (sys.visitorOf v).lastSeen else (sys.calls v.author).now

/-- A get that returns `loaded` at `now` is timely when `loaded` is the absence of
the item or the item there was initially, or when every put that led to it
recorded its visitor in a second that is not after `now`. -/
def TimelyGet (sys : System ι) (now : ℤ) (loaded : Option StoredItem) : List (Version ι) → Prop
  | [] => loaded = none ∨ loaded = sys.initial
  | v :: older =>
      (loaded = some v.request.item ∧
        ∀ w ∈ v :: older, floorToSeconds (sys.recordedTime w) ≤ now) ∨
      TimelyGet sys now loaded older

/-- The gets are timely. -/
def Timely (sys : System ι) (s : Handlers ι) : HandlerEvent ι → Prop
  | .act (.get i loaded) => TimelyGet sys (sys.calls i).now loaded s.table.versions
  | _ => True

instance decidableTimelyGet (sys : System ι) (now : ℤ) (loaded : Option StoredItem) :
    (versions : List (Version ι)) → Decidable (TimelyGet sys now loaded versions)
  | [] => inferInstanceAs (Decidable (loaded = none ∨ loaded = sys.initial))
  | v :: older =>
      have := decidableTimelyGet sys now loaded older
      inferInstanceAs (Decidable ((loaded = some v.request.item ∧
        ∀ w ∈ v :: older, floorToSeconds (sys.recordedTime w) ≤ now) ∨
        TimelyGet sys now loaded older))

instance decidableTimely (sys : System ι) (s : Handlers ι) :
    (e : HandlerEvent ι) → Decidable (Timely sys s e)
  | .act (.get i loaded) =>
      inferInstanceAs (Decidable (TimelyGet sys (sys.calls i).now loaded s.table.versions))
  | .act (.put _ _ _) => isTrue trivial
  | .act (.putAgain _ _ _) => isTrue trivial
  | .act (.reply _ _) => isTrue trivial
  | .act (.fail _ _) => isTrue trivial
  | .tick _ => isTrue trivial
  | .readLastSeen _ => isTrue trivial
  | .readNow _ => isTrue trivial

variable {sys : System ι} {versions : List (Version ι)}

/-- An entry under the time that a put of the history recorded, or an initial one. -/
def Recorded (sys : System ι) (versions : List (Version ι)) (e : StoredVisitor) : Prop :=
  (∃ w ∈ versions, e.time = floorToSeconds (sys.recordedTime w)) ∨ e ∈ entriesOf sys.initial

theorem Recorded.mono {newer : List (Version ι)} {e : StoredVisitor}
    (h : Recorded sys versions e) (hsub : versions ⊆ newer) : Recorded sys newer e := by
  rcases h with ⟨w, hw, htime⟩ | hinitial
  · exact Or.inl ⟨w, hsub hw, htime⟩
  · exact Or.inr hinitial

/-- **Every entry of a version was recorded** by a put up to that version. -/
theorem Lineage.recorded (h : Lineage sys versions) :
    ∀ v older, v :: older <:+ versions → ∀ e ∈ v.request.item.recent,
      Recorded sys (v :: older) e := by
  induction h with
  | nil =>
      intro v older hsuffix
      exact absurd (List.suffix_nil.mp hsuffix) (List.cons_ne_nil _ _)
  | @put versions w loaded hlineage hprep hholds ih =>
      intro v older hsuffix e he
      rcases List.suffix_cons_iff.mp hsuffix with hsame | hsuffix
      · obtain ⟨rfl, rfl⟩ := List.cons.inj hsame
        -- Loaded entries were recorded before.
        have hloaded : ∀ item ∈ sys.items older, e ∈ item.recent → Recorded sys (v :: older) e := by
          intro item hitem hmem
          rcases List.mem_append.mp hitem with hitem | hitem
          · obtain ⟨u, hu, rfl⟩ := List.mem_map.mp hitem
            obtain ⟨newer, rest, rfl⟩ := List.append_of_mem hu
            exact (ih u rest (List.suffix_append _ _) e hmem).mono
              (List.subset_cons_of_subset _ (List.subset_append_right _ _))
          · rw [Option.mem_toList] at hitem
            refine Or.inr ?_
            rw [show sys.initial = some item from hitem]
            exact hmem
        rcases hprep.cases with ⟨rfl, hrep, hrequest⟩ | ⟨item, hitem, rfl, hrefresh | hpush⟩
        · refine Or.inl ⟨v, List.mem_cons_self, ?_⟩
          rw [hrequest, StoredItem.recent_mk, List.mem_singleton] at he
          rw [he, Visitor.stored_time hrep, System.recordedTime, hrequest]
          rfl
        · rcases hrefresh.mem_recent he with ⟨hmem, -⟩ | ⟨-, htime⟩
          · exact hloaded item hitem hmem
          · refine Or.inl ⟨v, List.mem_cons_self, ?_⟩
            rw [htime, System.recordedTime, hrefresh.counts_eq_false]
            rfl
        · rcases hpush.mem_recent he with ⟨hmem, -⟩ | ⟨-, htime⟩
          · exact hloaded item hitem hmem
          · refine Or.inl ⟨v, List.mem_cons_self, ?_⟩
            rw [htime, System.recordedTime, hpush.counts_eq_true]
            rfl
      · exact ih v older hsuffix e he

/-- A timely get loads no entry that is later than `now`. -/
theorem TimelyGet.entry_le {now : ℤ} {loaded : Option StoredItem}
    (h : TimelyGet sys now loaded versions) (hlineage : Lineage sys versions)
    (hinitial : ∀ e ∈ entriesOf sys.initial, e.time ≤ now) :
    ∀ e ∈ entriesOf loaded, e.time ≤ now := by
  have hrecorded := hlineage.recorded
  -- A part of a history need not be one: the induction keeps what was recorded only.
  clear hlineage
  induction versions with
  | nil =>
      rcases h with rfl | rfl
      · exact fun e he => absurd he List.not_mem_nil
      · exact hinitial
  | cons v older ih =>
      rcases h with ⟨rfl, hputs⟩ | hearlier
      · intro e he
        rcases hrecorded v older List.suffix_rfl e he with ⟨w, hw, htime⟩ | hmem
        · rw [htime]
          exact hputs w hw
        · exact hinitial e hmem
      · exact ih hearlier fun u rest hsuffix =>
          hrecorded u rest (hsuffix.trans (List.suffix_cons _ _))

/-! ### Runs with timely gets -/

variable [DecidableEq ι]

/-- What the handlers have read from the clock. -/
structure Punctual (sys : System ι) (clock₀ : ℤ) (s : Handlers ι) : Prop where
  clock_ge : clock₀ ≤ s.clock
  clock_representable : Representable s.clock
  sawVisitor : ∀ i, s.stage i = .sawVisitor → clock₀ ≤ (sys.calls i).visitor.lastSeen ∧
    (sys.calls i).visitor.lastSeen ≤ s.clock ∧ Representable (sys.calls i).visitor.lastSeen
  ready : ∀ i, s.stage i = .ready → clock₀ ≤ (sys.calls i).now ∧
    (sys.calls i).visitor.lastSeen ≤ (sys.calls i).now ∧
    Representable (sys.calls i).visitor.lastSeen ∧ Representable (sys.calls i).now

theorem Handlers.enter_stage_cases {s : Handlers ι} {i j : ι} {stage stage' : Stage}
    (h : (s.enter i stage).stage j = stage') : (j = i ∧ stage = stage') ∨ s.stage j = stage' := by
  by_cases hj : j = i
  · subst hj
    simp only [Handlers.enter, Function.update_self] at h
    exact Or.inl ⟨rfl, h⟩
  · simp only [Handlers.enter, Function.update_of_ne hj] at h
    exact Or.inr h

/-- Every step keeps the handlers punctual. -/
theorem Punctual.step {clock₀ : ℤ} {s s' : Handlers ι} {e : HandlerEvent ι}
    (h : Punctual sys clock₀ s) (hstep : HandlerStep sys s e s') : Punctual sys clock₀ s' := by
  cases hstep with
  | @tick t hclock hrep =>
      refine ⟨h.clock_ge.trans hclock, hrep, fun i hi => ?_, h.ready⟩
      obtain ⟨hge, hle, hrep⟩ := h.sawVisitor i hi
      exact ⟨hge, hle.trans hclock, hrep⟩
  | @readLastSeen i hstage hclock =>
      refine ⟨h.clock_ge, h.clock_representable, fun j hj => ?_, fun j hj => ?_⟩
      · rcases Handlers.enter_stage_cases hj with ⟨rfl, -⟩ | hj
        · rw [hclock]
          exact ⟨h.clock_ge, le_rfl, h.clock_representable⟩
        · exact h.sawVisitor j hj
      · rcases Handlers.enter_stage_cases hj with ⟨-, hstage⟩ | hj
        · cases hstage
        · exact h.ready j hj
  | @readNow i hstage hclock =>
      refine ⟨h.clock_ge, h.clock_representable, fun j hj => ?_, fun j hj => ?_⟩
      · rcases Handlers.enter_stage_cases hj with ⟨-, hstage⟩ | hj
        · cases hstage
        · exact h.sawVisitor j hj
      · rcases Handlers.enter_stage_cases hj with ⟨rfl, -⟩ | hj
        · obtain ⟨-, hle, hrep⟩ := h.sawVisitor j hstage
          rw [hclock]
          exact ⟨h.clock_ge, hle, hrep, h.clock_representable⟩
        · exact h.ready j hj
  | act hstage hstep => exact ⟨h.clock_ge, h.clock_representable, h.sawVisitor, h.ready⟩

/-- A step whose get leads to a put leaves no invocation panicked. -/
theorem Step.not_panicked {s s' : State ι} {e : Event ι} (hstep : Step sys s e s')
    (hget : ∀ i loaded, e = .get i loaded → ∃ request, (sys.calls i).attempt loaded = .ok request)
    (h : ∀ i panic, s.phase i ≠ .done (.panicked panic)) (i : ι) (panic : Panic) :
    s'.phase i ≠ .done (.panicked panic) := by
  refine hstep.phase_rule (P := fun phase => phase ≠ .done (.panicked panic)) i
    ?others ?get ?put ?putAgain ?reply ?fail
  case others => exact fun _ => h i panic
  case get =>
    rintro attempt loaded rfl - -
    obtain ⟨request, hattempt⟩ := hget i loaded rfl
    rw [afterGet, hattempt]
    simp
  case put => simp
  case putAgain => exact fun _ _ _ => h i panic
  case reply =>
    intro attempt loaded request replies applied _ _ _
    rw [afterReply, loop]
    split_ifs <;> simp
  case fail => simp

/-- A step of the handlers with a timely get, if any. -/
def TimelyStep (sys : System ι) (s : Handlers ι) (e : HandlerEvent ι) (s' : Handlers ι) : Prop :=
  HandlerStep sys s e s' ∧ Timely sys s e

/-- The table of the handlers is coherent. -/
theorem coherent_table {clock₀ : ℤ} {trace : List (HandlerEvent ι)} {s : Handlers ι}
    (run : Run (TimelyStep sys) (sys.arrive clock₀) trace s) : Coherent sys s.table := by
  refine run.invariant (P := fun s => Coherent sys s.table) (Coherent.start sys) ?_
  rintro s e s' h ⟨hstep, -⟩
  cases hstep with
  | tick => exact h
  | readLastSeen => exact h
  | readNow => exact h
  | act hstage hstep => exact h.step hstep

theorem punctual_run {clock₀ : ℤ} (hrep : Representable clock₀) {trace : List (HandlerEvent ι)}
    {s : Handlers ι} (run : Run (TimelyStep sys) (sys.arrive clock₀) trace s) :
    Punctual sys clock₀ s := by
  refine run.invariant (P := Punctual sys clock₀) ⟨le_rfl, hrep, ?_, ?_⟩
    fun s e s' h hstep => h.step hstep.1
  · exact fun i hi => by cases hi
  · exact fun i hi => by cases hi

/-- A timely get of a handler loads no entry that is later than its `now`. -/
theorem TimelyStep.entry_le {clock₀ : ℤ} (hrep : Representable clock₀)
    (hinitial : ∀ e ∈ entriesOf sys.initial, e.time ≤ clock₀) {trace : List (HandlerEvent ι)}
    {s s' : Handlers ι} {i : ι} {loaded : Option StoredItem}
    (run : Run (TimelyStep sys) (sys.arrive clock₀) trace s)
    (hstep : TimelyStep sys s (.act (.get i loaded)) s') :
    ∀ e ∈ entriesOf loaded, e.time ≤ (sys.calls i).now := by
  obtain ⟨hstep, htimely⟩ := hstep
  cases hstep with
  | act hstage hstep =>
      have hready := (punctual_run hrep run).ready i hstage
      exact TimelyGet.entry_le htimely (coherent_table run).lineage
        fun e he => (hinitial e he).trans hready.1

/-- **No handler panics while the gets are timely.**  The handlers share a clock
that never goes back and stays in range, and the item starts without an entry
that is later than the clock.  If no get returns a version with a put that was
recorded in a later second than the getter's `now`, then no loaded entry is later
than the `now` of the attempt, and no invocation ends in a panic. -/
theorem no_panic_of_timely {sys : System ι} {clock₀ : ℤ} (hrep : Representable clock₀)
    (hinitial : ∀ e ∈ entriesOf sys.initial, e.time ≤ clock₀) {trace : List (HandlerEvent ι)}
    {s : Handlers ι} (run : Run (TimelyStep sys) (sys.arrive clock₀) trace s) :
    (∀ i loaded, .act (.get i loaded) ∈ trace →
        ∀ e ∈ entriesOf loaded, e.time ≤ (sys.calls i).now) ∧
      ∀ i panic, s.table.phase i ≠ .done (.panicked panic) := by
  refine run.invariant_trace (P := fun trace s => (∀ i loaded, .act (.get i loaded) ∈ trace →
      ∀ e ∈ entriesOf loaded, e.time ≤ (sys.calls i).now) ∧
    ∀ i panic, s.table.phase i ≠ .done (.panicked panic)) ⟨?_, ?_⟩ ?_
  · exact fun i loaded hmem => absurd hmem List.not_mem_nil
  · exact fun i panic hpanic => by cases hpanic
  · rintro trace s e s' hbefore ⟨hloaded, hpanic⟩ hstep
    constructor
    · intro i loaded hmem
      rcases List.mem_cons.mp hmem with rfl | hmem
      · exact TimelyStep.entry_le hrep hinitial hbefore hstep
      · exact hloaded i loaded hmem
    · have hget : ∀ i loaded, e = .act (.get i loaded) →
          ∀ entry ∈ entriesOf loaded, entry.time ≤ (sys.calls i).now := by
        rintro i loaded rfl
        exact TimelyStep.entry_le hrep hinitial hbefore hstep
      cases hstep.1 with
      | tick => exact hpanic
      | readLastSeen => exact hpanic
      | readNow => exact hpanic
      | act hstage htable =>
          refine htable.not_panicked ?_ hpanic
          rintro i loaded rfl
          obtain ⟨-, hseen, hrepSeen, hrepNow⟩ := (punctual_run hrep hbefore).ready i hstage
          exact exists_attempt_eq_ok hseen hrepSeen hrepNow (hget i loaded rfl)

/-- With the gets in the order of the clock reads nobody panics. -/
theorem no_panic_of_timely_twoHandlers :
    ∃ s : Handlers (Fin 2), s.table.phase 1 = .put 0 (some ⟨1, ⟨[⟨7, 10⟩]⟩⟩)
        ⟨some 1, ⟨2, ⟨[⟨7, 10⟩, ⟨8, 12⟩]⟩⟩⟩ [] ∧
      ∀ i panic, s.table.phase i ≠ .done (.panicked panic) := by
  have run : Run (TimelyStep twoHandlers) (twoHandlers.arrive 1_690_000_010_500_000_000)
      [.act (.get 1 (some ⟨1, ⟨[⟨7, 10⟩]⟩⟩)), .readNow 1, .readLastSeen 1,
        .tick 1_690_000_012_000_000_000, .act (.reply 0 true),
        .act (.put 0 ⟨none, ⟨1, ⟨[⟨7, 10⟩]⟩⟩⟩ true), .act (.get 0 none), .readNow 0,
        .readLastSeen 0] _ :=
    run_of_exec_guarded (fun _ _ _ => handle_sound) rfl
  exact ⟨_, rfl, (no_panic_of_timely (by decide) (by decide) run).2⟩

end VisitorCounter

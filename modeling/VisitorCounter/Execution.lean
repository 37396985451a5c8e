import VisitorCounter.Admission
import VisitorCounter.Requests

/-!
# Handlers on a table

The service answers as generously as DynamoDB may.  Here the handlers run on a table as
it is: they take turns, and whoever has a turn makes its next call of the client and goes
on with the reply.  Whatever the schedule, that is a run of the service, so that all that
holds of its runs holds of the handlers on the table.  Handling requests one after the
other is one of the schedules.

## Main Definitions

* `Execution`, `Execution.turn`, `Execution.turns`: handlers on a table, taking turns
* `Deployment.UpToDate`: gets return the item as it is
* `Realizes`: an execution is in a state of the service

## Main Results

* `executions_are_runs`: every schedule gives a run of the service
* `exists_turns_of_interp`: a handler that has all the turns does what its program does
* `handleAll_is_run`: handling requests one after the other is a run of the service
-/

namespace VisitorCounter

open Runs Programs

variable {σ ι : Type}

/-! ### Taking turns -/

/-- The handlers of the requests, running on a table, and its clock. -/
structure Execution (σ ι : Type) where
  clock : ℤ
  handler : ι → HandlerProgram
  table : σ

/-- What is scheduled next. -/
inductive Turn (ι : Type) where
  /-- The clock moves on. -/
  | tick (t : ℤ)
  /-- A handler makes its next call and hears the reply. -/
  | handler (i : ι)
deriving DecidableEq, Repr

/-- What a handler is offered at a time. -/
def DynamoTable.offer (db : DynamoTable σ) (clock : ℤ) : (c : Call) → StateM σ c.Reply
  | .now => pure clock
  | .getItem input => db.client.getItem input
  | .putItem input => db.client.putItem input

variable [DecidableEq ι]

/-- A turn.  A handler that is done lets it pass. -/
def Execution.turn (db : DynamoTable σ) (x : Execution σ ι) : Turn ι → Execution σ ι
  | .tick t => if x.clock ≤ t ∧ Representable t then { x with clock := t } else x
  | .handler i =>
      match x.handler i with
      | .done _ => x
      | .call c next =>
          let (reply, table) := (db.offer x.clock c).run x.table
          { x with handler := Function.update x.handler i (next reply), table := table }

@[simp] theorem Execution.turn_of_done {db : DynamoTable σ} {x : Execution σ ι} {i : ι}
    {result : Except HandlerFailure Response} (hdone : x.handler i = .done result) :
    x.turn db (.handler i) = x := by
  simp only [Execution.turn, hdone]

theorem Execution.turn_of_call {db : DynamoTable σ} {x : Execution σ ι} {i : ι} {c : Call}
    {next : c.Reply → HandlerProgram} (hcall : x.handler i = .call c next) :
    x.turn db (.handler i) =
      { x with
        handler := Function.update x.handler i (next ((db.offer x.clock c).run x.table).1)
        table := ((db.offer x.clock c).run x.table).2 } := by
  simp only [Execution.turn, hcall]
  rfl

/-- The turns of a schedule, newest first. -/
def Execution.turns (db : DynamoTable σ) (x : Execution σ ι) : List (Turn ι) → Execution σ ι
  | [] => x
  | turn :: earlier => (x.turns db earlier).turn db turn

omit [DecidableEq ι] in
/-- No request has been handled. -/
def Deployment.launch (d : Deployment ι) (clock : ℤ) (table : σ) : Execution σ ι :=
  ⟨clock, d.program, table⟩

/-! ### Turns as steps of the service -/

/-- Gets return the item as it is. -/
def Deployment.UpToDate (d : Deployment ι) (s : Service ι) : ServiceEvent ι → Prop
  | .get i found => found = d.current s.log (d.counter i)
  | _ => True

/-- A step of the service in which gets are up to date and puts are acknowledged truthfully. -/
abbrev TableStep (d : Deployment ι) (s : Service ι) (e : ServiceEvent ι) (s' : Service ι) : Prop :=
  ServiceStep d s e s' ∧ s.Truthful e ∧ d.UpToDate s e

/-- An execution is in a state of the service, and no put is under way. -/
structure Realizes (d : Deployment ι) (db : DynamoTable σ) (x : Execution σ ι) (s : Service ι) :
    Prop where
  clock : s.clock = x.clock
  handler : s.handler = x.handler
  replies : ∀ i, s.replies i = []
  items : ∀ name, d.current s.log name = db.items x.table name

section Realizes

variable {d : Deployment ι} {db : DynamoTable σ} {x : Execution σ ι} {s : Service ι} {i : ι}

omit [DecidableEq ι] in
theorem Realizes.launch {t : σ} (hitems : db.items t = d.items) (clock : ℤ) :
    Realizes d db (d.launch clock t) (d.start clock) where
  clock := rfl
  handler := rfl
  replies _ := rfl
  items name := by
    show (d.items name).toList.head? = _
    rw [show (d.launch clock t).table = t from rfl, hitems]
    cases d.items name <;> rfl

/-- A handler goes on. -/
theorem Realizes.goto (h : Realizes d db x s) (i : ι) (next : HandlerProgram) :
    Realizes d db { x with handler := Function.update x.handler i next } (s.goto i next) where
  clock := h.clock
  handler := by rw [Service.goto, h.handler]
  replies j := by
    obtain rfl | hne := eq_or_ne j i
    · exact Function.update_self ..
    · exact (Function.update_of_ne hne ..).trans (h.replies j)
  items := h.items

omit [DecidableEq ι] in
/-- The item under a key after a put. -/
theorem Deployment.current_cons (d : Deployment ι) {put : SentPut ι} {name : String}
    (hkey : keyOf put.input.item = some name) (log : List (SentPut ι)) :
    d.current (put :: log) = Function.update (d.current log) name (some put.input.item) := by
  funext other
  obtain rfl | hne := eq_or_ne other name
  · simp [Deployment.current, Deployment.versions, underKey, hkey]
  · have hother : keyOf put.input.item ≠ some other := fun h =>
      hne (Option.some.inj (h.symm.trans hkey))
    simp [Deployment.current, Deployment.versions, underKey, hother, Function.update_of_ne hne]

/-- The key of an item, as the client reads it. -/
theorem lookup_of_keyOf {item : Item} {name : String} (h : keyOf item = some name) :
    item.lookup "key" = some (.s name) := by
  unfold keyOf at h
  split at h
  · rename_i hlookup
    rw [hlookup, Option.some.inj h]
  · cases h

/-- What the client answers to a put, and what becomes of the items. -/
theorem DynamoTable.exists_run_putItem (db : DynamoTable σ) {input : PutItemInput} {name : String}
    (hkey : keyOf input.item = some name) (t : σ) :
    ∃ applied t', applied = conditionHolds input (db.items t name) ∧
      (db.client.putItem input).run t =
        (if applied then .ok () else .error .conditionalCheckFailed, t') ∧
      db.items t' =
        if applied then Function.update (db.items t) name (some input.item) else db.items t := by
  cases hholds : conditionHolds input (db.items t name) with
  | false =>
      exact ⟨false, t, rfl, db.putItem_run_of_not _ _ _ (lookup_of_keyOf hkey) hholds, rfl⟩
  | true =>
      obtain ⟨t', hrun, hitems⟩ := db.putItem_run _ _ _ (lookup_of_keyOf hkey) hholds
      exact ⟨true, t', rfl, hrun, hitems⟩

/-- A put and its reply. -/
theorem Realizes.put (h : Realizes d db x s) {input : PutItemInput} {name : String}
    (hkey : keyOf input.item = some name) {next : Except PutItemError Unit → HandlerProgram}
    (hcall : s.handler i = .call (.putItem input) next) :
    ∃ trace s', Run (TableStep d) s trace s' ∧ Realizes d db
      { x with
        handler := Function.update x.handler i (next ((db.client.putItem input).run x.table).1)
        table := ((db.client.putItem input).run x.table).2 } s' := by
  obtain ⟨applied, t', hholds, hrun, hitems⟩ := db.exists_run_putItem hkey x.table
  have happlied : applied = d.holds s.log input := by
    rw [hholds, Deployment.holds, hkey, ← h.items]
  -- The put is applied or not as the table says; between the two steps it is under way.
  let delivered : Service ι :=
    { s.deliver ⟨i, input⟩ applied with
      replies := Function.update s.replies i (applied :: s.replies i) }
  have hput : TableStep d s (.put i applied) delivered :=
    ⟨.put hcall happlied, h.replies i, trivial⟩
  have hreply : TableStep d delivered (.reply i applied) (delivered.goto i _) :=
    ⟨.reply hcall (by simp [delivered]), trivial, trivial⟩
  refine ⟨_, _, .cons (.cons .nil hput) hreply, h.clock, ?_, fun j => ?_, fun other => ?_⟩
  · rw [hrun, ← h.handler]
    rfl
  · obtain rfl | hne := eq_or_ne j i
    · exact Function.update_self ..
    · simpa [delivered, Service.goto, Function.update_of_ne hne] using h.replies j
  · have hlog : d.current (s.deliver ⟨i, input⟩ applied).log = db.items t' := by
      rw [hitems, ← funext h.items]
      cases applied with
      | false => rfl
      | true => exact d.current_cons hkey s.log
    rw [hrun]
    exact congrFun hlog other

/-- **A turn is answered by steps of the service.** -/
theorem Realizes.turn (h : Realizes d db x s) (hkeyed : Keyed d s) (turn : Turn ι) :
    ∃ trace s', Run (TableStep d) s trace s' ∧ Realizes d db (x.turn db turn) s' := by
  cases turn with
  | tick t =>
      rw [Execution.turn]
      split
      · rename_i htick
        have hstep : TableStep d s (.tick t) { s with clock := t } :=
          ⟨.tick (h.clock.trans_le htick.1) htick.2, trivial, trivial⟩
        exact ⟨_, _, .cons .nil hstep, rfl, h.handler, h.replies, h.items⟩
      · exact ⟨[], s, .nil, h⟩
  | handler i =>
      cases hcall : x.handler i with
      | done result =>
          rw [Execution.turn_of_done hcall]
          exact ⟨[], s, .nil, h⟩
      | call c next =>
          rw [Execution.turn_of_call hcall]
          have hcall' : s.handler i = .call c next := (congrFun h.handler i).trans hcall
          cases c with
          | now =>
              have hstep := ServiceStep.readClock (d := d) hcall'
              rw [h.clock] at hstep
              obtain ⟨hclock, hhandler, hreplies, hitems⟩ := h.goto i (next x.clock)
              exact ⟨_, _, .cons .nil ⟨hstep, trivial, trivial⟩, hclock, hhandler, hreplies, hitems⟩
          | getItem input =>
              obtain ⟨-, rfl⟩ := (hkeyed.call hcall').resolve_left (by simp)
              have hkey : keyOf (countEntryGet d.config.tableName (d.counter i)).key =
                some (d.counter i) := rfl
              have hrun := db.getItem_run _ (d.counter i) x.table (lookup_of_keyOf hkey)
              have hstep := ServiceStep.get hcall' (d.serves_current hkey s.log)
              refine ⟨_, _, .cons .nil ⟨hstep, trivial, rfl⟩, ?_⟩
              rw [show db.offer x.clock (.getItem _) = db.client.getItem _ from rfl, hrun,
                ← h.items]
              exact h.goto i _
          | putItem input =>
              obtain ⟨-, request, rfl⟩ := (hkeyed.call hcall').resolve_left (by simp)
              exact h.put (by rw [PutRequest.input_item, keyOf_attributes]) hcall'

/-- **Every schedule gives a run of the service**, in which gets are up to date and puts
are acknowledged truthfully. -/
theorem executions_are_runs (d : Deployment ι) (db : DynamoTable σ) {t : σ}
    (hitems : db.items t = d.items) (clock : ℤ) (turns : List (Turn ι)) :
    ∃ trace s, Run (TableStep d) (d.start clock) trace s ∧
      Realizes d db ((d.launch clock t).turns db turns) s := by
  induction turns with
  | nil => exact ⟨[], _, .nil, .launch hitems clock⟩
  | cons turn earlier ih =>
      obtain ⟨trace, s, run, hreal⟩ := ih
      have hkeyed := Keyed.run (run.mono fun _ _ _ hstep => hstep.1)
      obtain ⟨later, s', hlater, hreal'⟩ := hreal.turn hkeyed turn
      exact ⟨later ++ trace, s', run.append hlater, hreal'⟩

end Realizes

/-- Two handlers take turns; the second one puts too late and tries again. -/
def turnsOfTwo : List (Turn Guest) :=
  [.handler .second, .handler .second, .handler .second, .handler .first, .handler .second,
    .handler .first, .handler .second, .handler .second, .handler .first, .handler .first]

/-- Their turns are a run of the service, at the end of which both visitors are counted. -/
theorem executions_are_runs_turnsOfTwo : ∃ trace s,
    Run (TableStep twoRequests) (twoRequests.start 1690000100000000000) trace s ∧
      (twoRequests.current s.log "default").map countAttribute = some (.ok 2) := by
  obtain ⟨trace, s, run, hreal⟩ := executions_are_runs twoRequests DynamoTable.reference
    (show DynamoTable.reference.items (fun _ => none) = twoRequests.items from rfl)
    1690000100000000000 turnsOfTwo
  refine ⟨trace, s, run, ?_⟩
  rw [hreal.items]
  rfl

/-! ### One handler has all the turns -/

theorem Execution.turns_append (db : DynamoTable σ) (x : Execution σ ι)
    (later earlier : List (Turn ι)) :
    x.turns db (later ++ earlier) = (x.turns db earlier).turns db later := by
  induction later with
  | nil => rfl
  | cons turn later ih => rw [List.cons_append, Execution.turns, ih, Execution.turns]

section Alone

variable (db : DynamoTable σ) {clock : ℕ → ℤ} {i : ι}

/-- A handler that is given all the turns, the clock being set before each reading of it,
ends as its program does when it runs on the table. -/
theorem exists_turns_of_interp (ciborium : Ciborium) (tableName : String)
    (hmono : Monotone clock) (hrep : ∀ k, Representable (clock k)) {p : HandlerProgram}
    {x : Execution σ ι} {k : ℕ} (hp : x.handler i = p) (hclock : x.clock ≤ clock k) :
    ∃ turns now,
      let out := (p.interp (db.lambda ciborium tableName clock).offer).run (x.table, k)
      now ≤ clock out.2.2 ∧
        x.turns db turns = ⟨now, Function.update x.handler i (.done out.1), out.2.1⟩ := by
  induction p generalizing x k with
  | done result =>
      refine ⟨[], x.clock, hclock, ?_⟩
      show x = ⟨x.clock, Function.update x.handler i (.done result), x.table⟩
      rw [← hp, Function.update_eq_self]
  | call c next ih =>
      -- After the first call the handler has all the turns again.
      have hrest : ∀ reply first k' now t,
          x.turns db first = ⟨now, Function.update x.handler i (next reply), t⟩ →
          now ≤ clock k' →
          ((Program.call c next).interp (db.lambda ciborium tableName clock).offer).run
              (x.table, k) =
            ((next reply).interp (db.lambda ciborium tableName clock).offer).run (t, k') →
          ∃ turns now,
            let out := ((Program.call c next).interp
              (db.lambda ciborium tableName clock).offer).run (x.table, k)
            now ≤ clock out.2.2 ∧
              x.turns db turns = ⟨now, Function.update x.handler i (.done out.1), out.2.1⟩ := by
        intro reply first k' now t hfirst hle hrun
        obtain ⟨turns, now', hnow, hturns⟩ := ih reply
          (x := ⟨now, Function.update x.handler i (next reply), t⟩) (Function.update_self ..) hle
        rw [Function.update_idem] at hturns
        exact ⟨turns ++ first, now', hrun ▸ hnow, by
          rw [Execution.turns_append, hfirst, hturns, hrun]⟩
      cases c with
      | now =>
          refine hrest (clock k) [.handler i, .tick (clock k)] (k + 1) (clock k) x.table ?_
            (hmono (Nat.le_succ k)) rfl
          have htick : x.turn db (.tick (clock k)) = { x with clock := clock k } :=
            if_pos ⟨hclock, hrep k⟩
          show (x.turn db (.tick (clock k))).turn db (.handler i) = _
          rw [htick]
          exact Execution.turn_of_call (x := { x with clock := clock k }) hp
      | getItem input =>
          exact hrest _ [.handler i] k _ _ (Execution.turn_of_call hp) hclock rfl
      | putItem input =>
          exact hrest _ [.handler i] k _ _ (Execution.turn_of_call hp) hclock rfl

variable {d : Deployment ι}

/-- So a handler that is given all the turns ends as the handler on the table does. -/
theorem exists_turns_of_handler (hmono : Monotone clock) (hrep : ∀ k, Representable (clock k))
    {x : Execution σ ι} {k : ℕ} (hstart : x.handler i = d.program i) (hclock : x.clock ≤ clock k) :
    ∃ turns now,
      let out := (functionHandler d.crates d.config
        (db.lambda d.ciborium d.config.tableName clock) (d.requests i)).run.run (x.table, k)
      now ≤ clock out.2.2 ∧
        x.turns db turns = ⟨now, Function.update x.handler i (.done out.1), out.2.1⟩ := by
  have hprogram := interp_handlerProgram (db.lambda d.ciborium d.config.tableName clock) d.crates
    d.config rfl (d.requests i)
  rw [← hprogram]
  exact exists_turns_of_interp db _ _ hmono hrep hstart hclock

variable (d)

/-- Handling requests one after the other is a schedule of their handlers. -/
theorem exists_turns_of_handleAll (hmono : Monotone clock) (hrep : ∀ k, Representable (clock k))
    (t : σ) {is : List ι} (hnodup : is.Nodup) :
    ∃ turns x,
      let out := (handleAll d.crates d.config (db.lambda d.ciborium d.config.tableName clock)
        (is.map d.requests)).run (t, 0)
      (d.launch (clock 0) t).turns db turns = x ∧ x.clock ≤ clock out.2.2 ∧ x.table = out.2.1 ∧
        is.map x.handler = out.1.map .done ∧ ∀ i ∉ is, x.handler i = d.program i := by
  induction is with
  | nil => exact ⟨[], _, rfl, le_rfl, rfl, rfl, fun _ _ => rfl⟩
  | cons i earlier ih =>
      obtain ⟨hnew, hnodup⟩ := List.nodup_cons.mp hnodup
      obtain ⟨turns, x, hturns, hclock, htable, hdone, hothers⟩ := ih hnodup
      obtain ⟨more, now, hnow, hmore⟩ :=
        exists_turns_of_handler db hmono hrep (hothers i hnew) hclock
      rw [htable] at hnow hmore
      refine ⟨more ++ turns, _, by rw [Execution.turns_append, hturns, hmore], hnow, rfl, ?_, ?_⟩
      · rw [List.map_cons, List.map_cons, run_handleAll_cons, List.map_cons]
        refine List.cons_eq_cons.mpr ⟨Function.update_self .., ?_⟩
        rw [← hdone]
        refine List.map_congr_left fun j hj => Function.update_of_ne ?_ ..
        rintro rfl
        exact hnew hj
      · intro j hj
        exact (Function.update_of_ne (List.ne_of_not_mem_cons hj) ..).trans
          (hothers j (List.not_mem_of_not_mem_cons hj))

/-- **Handling requests one after the other is a run of the service**, with a clock that
does not run backwards and is in range.  In it gets are up to date and puts are
acknowledged truthfully; it ends with the results of the handlers, and with their items in
the table. -/
theorem handleAll_is_run (hmono : Monotone clock) (hrep : ∀ k, Representable (clock k))
    {t : σ} (hitems : db.items t = d.items) {is : List ι} (hnodup : is.Nodup) :
    ∃ trace s,
      let out := (handleAll d.crates d.config (db.lambda d.ciborium d.config.tableName clock)
        (is.map d.requests)).run (t, 0)
      Run (TableStep d) (d.start (clock 0)) trace s ∧ is.map s.handler = out.1.map .done ∧
        (∀ i ∉ is, s.handler i = d.program i) ∧
        ∀ name, d.current s.log name = db.items out.2.1 name := by
  obtain ⟨turns, x, hturns, -, htable, hdone, hothers⟩ :=
    exists_turns_of_handleAll db d hmono hrep t hnodup
  obtain ⟨trace, s, run, hreal⟩ := executions_are_runs d db hitems (clock 0) turns
  rw [hturns] at hreal
  refine ⟨trace, s, run, ?_, fun i hi => ?_, fun name => ?_⟩
  · rw [hreal.handler, hdone]
  · rw [hreal.handler, hothers i hi]
  · rw [hreal.items, htable]

end Alone

/-- Two visitors whose requests do not overlap. -/
theorem handleAll_is_run_twoRequests : ∃ trace s results t',
    (handleAll Crates.reference ⟨"table", 5, ["default"]⟩
      (DynamoTable.reference.lambda Ciborium.reference "table" fun _ => 1690000100000000000)
      [twoRequests.requests .second, twoRequests.requests .first]).run (fun _ => none, 0) =
        (results, t', 4) ∧
    Run (TableStep twoRequests) (twoRequests.start 1690000100000000000) trace s ∧
    [s.handler .second, s.handler .first] = results.map .done ∧
    twoRequests.current s.log "default" = t' "default" := by
  obtain ⟨trace, s, run, hdone, -, hcurrent⟩ := handleAll_is_run DynamoTable.reference twoRequests
    (show Monotone fun _ => 1690000100000000000 from monotone_const)
    (fun _ => show Representable 1690000100000000000 by decide)
    (show DynamoTable.reference.items (fun _ => none) = twoRequests.items from rfl)
    (show [Guest.second, .first].Nodup by decide)
  exact ⟨trace, s, _, _, rfl, run, hdone, hcurrent "default"⟩

end VisitorCounter

import VisitorCounter.Admission
import VisitorCounter.Library.Simulation

/-!
# The service seen from one counter

Seen from one counter, the service is the system of `VisitorCounter.Clock`: the
handlers that count a visit of the counter are invocations on its item, and the
others do not show.  The clock readings of a handler, which the system knows from
the start, are those that the handler has made by the end of the run.

## Main Definitions

* `Tracks`: a handler's program against its stage and its phase
* `View`: a state of the service, seen from a counter
* `Foretold`: the invocations of the system are those of the handlers
* `Shows`: an event of the service, seen from a counter

## Main Results

* `View.step`: every step of the service is a step of the system, or does not show
* `exists_view`: every run of the service is a run of the system
-/

namespace VisitorCounter

open Runs Programs

variable {ι : Type}

/-- The tag of the visitor of a request that is admitted. -/
def Deployment.tag (d : Deployment ι) (i : ι) : UInt32 :=
  match admission d.crates (d.requests i) with
  | .ok info => (Visitor.ofRequestInfo d.crates.md5 0 info).tag
  | .error _ => 0

/-- The result of the store that an outcome is. -/
def Outcome.result : Outcome → Except Failure UInt64
  | .ok count => .ok count
  | .error err => .error (.error err)
  | .panicked panic => .error (.panic panic)

/-- The request of the put that an invocation waits for. -/
def Phase.request : Phase → Option PutRequest
  | .put _ _ request _ => some request
  | _ => none

/-- After the reply to its put, an invocation waits for no put. -/
theorem Phase.request_afterReply (attempt : ℕ) (request : PutRequest) (applied : Bool) :
    (afterReply attempt request applied).request = none := by
  rw [afterReply, loop]
  split_ifs <;> rfl

/-- A put leaves its invocation when it waits for one. -/
theorem State.send_sent (s : State ι) (i : ι) (phase : Phase) : (s.send i phase).sent =
    (phase.request.map fun request => ⟨i, request⟩).toList ++ s.sent := by
  cases phase <;> rfl

/-- The put of a version, as it is sent to the table. -/
def Version.sentPut (d : Deployment ι) (name : String) (v : Version ι) : SentPut ι where
  author := v.author
  input := v.request.input d.ciborium d.config.tableName name

/-- What the handler does with a program of the store. -/
abbrev Deployment.answering (d : Deployment ι) (name : String) (inv : Invocation)
    (p : Program Call Call.Reply (Except Failure UInt64)) : HandlerProgram :=
  p >>= fun result => .done (answer d.crates d.config inv.visitor name result)

/-- What is left of a handler, what it has read and the replies to its put, against
the stage and the phase that it is in. -/
inductive Tracks (d : Deployment ι) (name : String) (inv : Invocation) (i : ι) :
    HandlerProgram → List ℤ → List Bool → Stage → Phase → Prop
  | arrived : Tracks d name inv i (d.program i) [] [] .arrived (loop 0)
  | sawVisitor :
      Tracks d name inv i (visitProgram d.crates d.ciborium d.config name inv.visitor)
        [inv.visitor.lastSeen] [] .sawVisitor (loop 0)
  | looping {attempt left : ℕ} (hleft : attempt + left = maxAttemptsForOptimisticLocking) :
      Tracks d name inv i
        (d.answering name inv (attemptsProgram d.ciborium d.config.tableName name inv left))
        [inv.visitor.lastSeen, inv.now] [] .ready (loop attempt)
  | waiting {attempt left : ℕ} {loaded : Option StoredItem} {request : PutRequest}
      {replies : List Bool} (hleft : attempt + 1 + left = maxAttemptsForOptimisticLocking) :
      Tracks d name inv i
        (d.answering name inv (putProgram d.ciborium d.config.tableName name inv left
          (request.input d.ciborium d.config.tableName name) request.item.count))
        [inv.visitor.lastSeen, inv.now] replies .ready (.put attempt loaded request replies)
  | done (outcome : Outcome) :
      Tracks d name inv i (d.answering name inv (.done outcome.result))
        [inv.visitor.lastSeen, inv.now] [] .ready (.done outcome)

/-- A state of the service, seen from a counter. -/
structure View (d : Deployment ι) (name : String) (sys : System ι) (s : Service ι)
    (a : Handlers ι) : Prop where
  clock : a.clock = s.clock
  visiting : ∀ i, d.Visits i name → Tracks d name (sys.calls i) i (s.handler i) (s.reads i)
    (s.replies i) (a.stage i) (a.table.phase i)
  log : underKey name s.log = a.table.versions.map (Version.sentPut d name)
  sent : underKey name s.sent = a.table.sent.map (Version.sentPut d name)
  ready : ∀ v ∈ a.table.sent, a.stage v.author = .ready

/-- The invocations of a system are those that the handlers of a counter turn out to make. -/
def Foretold (d : Deployment ι) (name : String) (sys : System ι) (s : Service ι) : Prop :=
  ∀ i, d.Visits i name → (sys.calls i).visitor.tag = d.tag i ∧
    s.reads i <+: [(sys.calls i).visitor.lastSeen, (sys.calls i).now]

/-- The first item of a counter is absent, or has the attributes that the store writes. -/
structure Stocked (d : Deployment ι) (name : String) (sys : System ι) : Prop where
  items : d.items name = sys.initial.map (StoredItem.attributes d.ciborium name)
  fits : ∀ item ∈ sys.initial, item.recent.length < 2 ^ 64

/-- An event of the service, seen from a counter. -/
inductive Shows (d : Deployment ι) (name : String) : ServiceEvent ι → HandlerEvent ι → Prop
  | tick (t : ℤ) : Shows d name (.tick t) (.tick t)
  | readLastSeen {i : ι} (hvisits : d.Visits i name) :
      Shows d name (.readClock i) (.readLastSeen i)
  | readNow {i : ι} (hvisits : d.Visits i name) : Shows d name (.readClock i) (.readNow i)
  | get {i : ι} (hvisits : d.Visits i name) (loaded : Option StoredItem) :
      Shows d name (.get i (loaded.map (StoredItem.attributes d.ciborium name)))
        (.act (.get i loaded))
  | put {i : ι} (hvisits : d.Visits i name) (request : PutRequest) (applied : Bool) :
      Shows d name (.put i applied) (.act (.put i request applied))
  | putAgain (v : Version ι) (applied : Bool) :
      Shows d name (.putAgain (v.sentPut d name) applied)
        (.act (.putAgain v.author v.request applied))
  | reply {i : ι} (hvisits : d.Visits i name) (applied : Bool) :
      Shows d name (.reply i applied) (.act (.reply i applied))
  | fail {i : ι} (hvisits : d.Visits i name) (error : BoxError) :
      Shows d name (.fail i error) (.act (.fail i error))

/-- What a handler does shows from the counters that it visits. -/
theorem Shows.visits {d : Deployment ι} {name : String} {e : ServiceEvent ι}
    {event : HandlerEvent ι} (h : Shows d name e event) {i : ι} (hid : e.id = some i) :
    d.Visits i name := by
  cases h with
  | tick => cases hid
  | readLastSeen hvisits => exact Option.some.inj hid ▸ hvisits
  | readNow hvisits => exact Option.some.inj hid ▸ hvisits
  | get hvisits => exact Option.some.inj hid ▸ hvisits
  | put hvisits => exact Option.some.inj hid ▸ hvisits
  | putAgain => cases hid
  | reply hvisits => exact Option.some.inj hid ▸ hvisits
  | fail hvisits => exact Option.some.inj hid ▸ hvisits

/-! ### The program of a handler -/

section Tracks

variable {d : Deployment ι} {name : String} {inv : Invocation} {i : ι} {p : HandlerProgram}
  {reads : List ℤ} {replies : List Bool} {stage : Stage} {phase : Phase}

/-- The handler of a visit starts with the clock. -/
theorem Deployment.Visits.program_eq (h : d.Visits i name) :
    d.program i = .call .now fun seen =>
      visitProgram d.crates d.ciborium d.config name ⟨d.tag i, seen⟩ := by
  obtain ⟨⟨info, hadmission⟩, hname, -⟩ := h
  rw [Deployment.program, handlerProgram_eq, hadmission]
  dsimp only
  rw [show (d.requests i).countName = name from hname, Deployment.tag, hadmission]
  rfl

theorem Deployment.Visits.visitProgram_eq_call (h : d.Visits i name) (visitor : Visitor) :
    visitProgram d.crates d.ciborium d.config name visitor =
      .call .now fun now => d.answering name ⟨visitor, now⟩
        (attemptsProgram d.ciborium d.config.tableName name ⟨visitor, now⟩
          maxAttemptsForOptimisticLocking) := by
  rw [visitProgram_eq, if_pos]
  simpa using h.2.2

/-- The handler waits for the clock: it has just arrived, or has read it once. -/
theorem Tracks.of_now {next : ℤ → HandlerProgram}
    (h : Tracks d name inv i p reads replies stage phase) (hvisits : d.Visits i name)
    (hp : p = .call .now next) :
    (reads = [] ∧ replies = [] ∧ stage = .arrived ∧ phase = loop 0 ∧ next = fun seen =>
        visitProgram d.crates d.ciborium d.config name ⟨d.tag i, seen⟩) ∨
      (reads = [inv.visitor.lastSeen] ∧ replies = [] ∧ stage = .sawVisitor ∧ phase = loop 0 ∧
        next = fun now => d.answering name ⟨inv.visitor, now⟩
          (attemptsProgram d.ciborium d.config.tableName name ⟨inv.visitor, now⟩
            maxAttemptsForOptimisticLocking)) := by
  cases h with
  | arrived =>
      rw [hvisits.program_eq] at hp
      obtain ⟨-, hnext⟩ := Program.call.inj hp
      exact Or.inl ⟨rfl, rfl, rfl, rfl, (eq_of_heq hnext).symm⟩
  | sawVisitor =>
      rw [hvisits.visitProgram_eq_call] at hp
      obtain ⟨-, hnext⟩ := Program.call.inj hp
      exact Or.inr ⟨rfl, rfl, rfl, rfl, (eq_of_heq hnext).symm⟩
  | @looping attempt left hleft =>
      cases left with
      | zero => cases hp
      | succ left =>
          rw [Deployment.answering, attemptsProgram_succ] at hp
          cases (Program.call.inj hp).1
  | waiting hleft => cases (Program.call.inj hp).1
  | done outcome => cases hp

/-- The handler waits for the reply to a get: it is at the beginning of an attempt. -/
theorem Tracks.of_getItem {input : GetItemInput}
    {next : Except BoxError GetItemOutput → HandlerProgram}
    (h : Tracks d name inv i p reads replies stage phase) (hvisits : d.Visits i name)
    (hp : p = .call (.getItem input) next) :
    ∃ attempt left, attempt + 1 + left = maxAttemptsForOptimisticLocking ∧
      reads = [inv.visitor.lastSeen, inv.now] ∧ replies = [] ∧ stage = .ready ∧
      phase = .get attempt ∧ input = countEntryGet d.config.tableName name ∧
      next = fun reply => d.answering name inv (match readReply d.ciborium reply with
        | .error failure => .done (.error failure)
        | .ok loaded =>
            updateProgram d.ciborium d.config.tableName name inv left loaded) := by
  cases h with
  | arrived =>
      rw [hvisits.program_eq] at hp
      cases (Program.call.inj hp).1
  | sawVisitor =>
      rw [hvisits.visitProgram_eq_call] at hp
      cases (Program.call.inj hp).1
  | @looping attempt left hleft =>
      cases left with
      | zero => cases hp
      | succ left =>
          rw [Deployment.answering, attemptsProgram_succ] at hp
          obtain ⟨hcall, hnext⟩ := Program.call.inj hp
          obtain rfl := Call.getItem.inj hcall
          refine ⟨attempt, left, by omega, rfl, rfl, rfl, ?_, rfl, (eq_of_heq hnext).symm⟩
          rw [loop, if_pos (by omega)]
  | waiting hleft => cases (Program.call.inj hp).1
  | done outcome => cases hp

/-- The handler waits for the reply to a put: it is at the end of an attempt. -/
theorem Tracks.of_putItem {input : PutItemInput}
    {next : Except PutItemError Unit → HandlerProgram}
    (h : Tracks d name inv i p reads replies stage phase) (hvisits : d.Visits i name)
    (hp : p = .call (.putItem input) next) :
    ∃ attempt left loaded request, attempt + 1 + left = maxAttemptsForOptimisticLocking ∧
      reads = [inv.visitor.lastSeen, inv.now] ∧ stage = .ready ∧
      phase = .put attempt loaded request replies ∧
      input = request.input d.ciborium d.config.tableName name ∧
      next = fun reply => d.answering name inv (match putReply reply with
        | .error error => .done (.error (.error error))
        | .ok true => .done (.ok request.item.count)
        | .ok false => attemptsProgram d.ciborium d.config.tableName name inv left) := by
  cases h with
  | arrived =>
      rw [hvisits.program_eq] at hp
      cases (Program.call.inj hp).1
  | sawVisitor =>
      rw [hvisits.visitProgram_eq_call] at hp
      cases (Program.call.inj hp).1
  | @looping attempt left hleft =>
      cases left with
      | zero => cases hp
      | succ left =>
          rw [Deployment.answering, attemptsProgram_succ] at hp
          cases (Program.call.inj hp).1
  | @waiting attempt left loaded request replies hleft =>
      obtain ⟨hcall, hnext⟩ := Program.call.inj hp
      obtain rfl := Call.putItem.inj hcall
      exact ⟨attempt, left, loaded, request, hleft, rfl, rfl, rfl, rfl, (eq_of_heq hnext).symm⟩
  | done outcome => cases hp

/-- The put that the program waits for is the one of the phase. -/
theorem Tracks.pendingPut_eq (h : Tracks d name inv i p reads replies stage phase)
    (hvisits : d.Visits i name) :
    pendingPut p = phase.request.map (PutRequest.input d.ciborium d.config.tableName name) := by
  cases h with
  | arrived =>
      rw [hvisits.program_eq]
      rfl
  | sawVisitor =>
      rw [hvisits.visitProgram_eq_call]
      rfl
  | @looping attempt left hleft =>
      rw [loop]
      cases left with
      | zero =>
          rw [if_neg (by omega)]
          rfl
      | succ left =>
          rw [if_pos (by omega), Deployment.answering, attemptsProgram_succ]
          rfl
  | waiting hleft => rfl
  | done outcome => rfl

/-- An invocation that waits for a put is ready. -/
theorem Tracks.stage_eq (h : Tracks d name inv i p reads replies stage phase)
    {request : PutRequest} (hrequest : phase.request = some request) : stage = .ready := by
  cases h with
  | arrived => cases hrequest
  | sawVisitor => cases hrequest
  | looping => rfl
  | waiting => rfl
  | done => rfl

/-- After the reply to its get, the handler is where the invocation is. -/
theorem tracks_afterGet {attempt left : ℕ}
    (hleft : attempt + 1 + left = maxAttemptsForOptimisticLocking) (loaded : Option StoredItem) :
    Tracks d name inv i
      (d.answering name inv (updateProgram d.ciborium d.config.tableName name inv left
        (loaded.map CountEntry.ofItem)))
      [inv.visitor.lastSeen, inv.now] [] .ready (afterGet inv attempt loaded) := by
  rw [updateProgram_eq, preparePut_eq, afterGet]
  cases inv.attempt loaded with
  | error panic => exact .done (.panicked panic)
  | ok request => exact .waiting hleft

/-- After the reply to its put, the handler is where the invocation is. -/
theorem tracks_afterReply {attempt left : ℕ}
    (hleft : attempt + 1 + left = maxAttemptsForOptimisticLocking) (request : PutRequest)
    (applied : Bool) :
    Tracks d name inv i
      (d.answering name inv (match putReply
          (if applied then .ok () else .error .conditionalCheckFailed) with
        | .error error => .done (.error (.error error))
        | .ok true => .done (.ok request.item.count)
        | .ok false => attemptsProgram d.ciborium d.config.tableName name inv left))
      [inv.visitor.lastSeen, inv.now] [] .ready (afterReply attempt request applied) := by
  cases applied with
  | true => exact .done (.ok request.item.count)
  | false => exact .looping hleft

end Tracks

/-! ### The table -/

section Table

variable {d : Deployment ι} {name : String} {sys : System ι} {s : Service ι} {a : Handlers ι}

theorem u64ToString_injective : Function.Injective u64ToString := by
  intro n n' h
  have hparse := congrArg parseU64 h
  rw [parseU64_u64ToString, parseU64_u64ToString] at hparse
  exact Option.some.inj hparse

/-- The condition of a put on attributes is its condition on the item. -/
theorem conditionHolds_input (ciborium : Ciborium) (tableName name : String)
    (request : PutRequest) (current : Option StoredItem) :
    conditionHolds (request.input ciborium tableName name)
        (current.map (StoredItem.attributes ciborium name)) =
      request.holds current := by
  obtain ⟨expected, item⟩ := request
  cases expected with
  | none => cases current <;> rfl
  | some count =>
      cases current with
      | none => rfl
      | some found =>
          show (some (AttributeValue.n (u64ToString found.count)) == some
            (AttributeValue.n (u64ToString count))) = (count == found.count)
          rw [Bool.eq_iff_iff, beq_iff_eq, beq_iff_eq, Option.some_inj, AttributeValue.n.injEq,
            u64ToString_injective.eq_iff, eq_comm]

/-- The items under the key of the counter are its versions. -/
theorem View.versions_eq (h : View d name sys s a) (hstocked : Stocked d name sys) :
    d.versions s.log name =
      (sys.items a.table.versions).map (StoredItem.attributes d.ciborium name) := by
  rw [Deployment.versions, h.log, hstocked.items, System.items, List.map_append, List.map_map,
    List.map_map, List.map_congr_left fun v _ => PutRequest.input_item _ _ _ v.request]
  cases sys.initial <;> rfl

theorem View.current_eq (h : View d name sys s a) (hstocked : Stocked d name sys) :
    d.current s.log name =
      (sys.current a.table.versions).map (StoredItem.attributes d.ciborium name) := by
  rw [Deployment.current, h.versions_eq hstocked, List.head?_map, System.current]

/-- A put of the counter is applied to the service when it is applied to the system. -/
theorem View.holds_eq (h : View d name sys s a) (hstocked : Stocked d name sys)
    (request : PutRequest) :
    d.holds s.log (request.input d.ciborium d.config.tableName name) =
      request.holds (sys.current a.table.versions) := by
  rw [Deployment.holds, PutRequest.input_item, keyOf_attributes]
  dsimp only
  rw [h.current_eq hstocked, conditionHolds_input]

/-- What a get of the counter returns is a version, or nothing. -/
theorem View.exists_serves (h : View d name sys s a) (hstocked : Stocked d name sys)
    {found : Option Item}
    (hserves : d.Serves s.log (countEntryGet d.config.tableName name) found) :
    ∃ loaded, found = loaded.map (StoredItem.attributes d.ciborium name) ∧
      sys.Serves a.table.versions loaded := by
  obtain ⟨_, hkey, rfl | ⟨item, hitem, rfl⟩⟩ := hserves
  · exact ⟨none, rfl, Or.inl rfl⟩
  · obtain rfl := Option.some.inj hkey
    rw [h.versions_eq hstocked] at hitem
    obtain ⟨stored, hstored, rfl⟩ := List.mem_map.mp hitem
    exact ⟨some stored, rfl, Or.inr ⟨stored, hstored, rfl⟩⟩

/-- A put that was prepared fits a `Vec`, as every list does. -/
theorem Prepared.length_recent_lt {versions : List (Version ι)} {v : Version ι}
    {loaded : Option StoredItem} (h : Prepared sys versions v loaded) :
    v.request.item.recent.length < 2 ^ 64 := by
  have hmax : maxRecentVisitors < 2 ^ 64 := by
    rw [maxRecentVisitors_eq]
    norm_num
  rcases h.cases with ⟨-, -, hrequest⟩ | ⟨item, -, -, hrefresh | hpush⟩
  · rw [hrequest]
    exact Nat.one_lt_two_pow (by decide)
  · exact hrefresh.written.length_recent_le.trans_lt hmax
  · exact hpush.written.length_recent_le.trans_lt hmax

/-- Every version of a history fits a `Vec` when the initial item does. -/
theorem Lineage.length_recent_lt {versions : List (Version ι)} (h : Lineage sys versions)
    (hinitial : ∀ item ∈ sys.initial, item.recent.length < 2 ^ 64) :
    ∀ item ∈ sys.items versions, item.recent.length < 2 ^ 64 := by
  induction h with
  | nil => simpa using hinitial
  | put _ hprep _ ih => exact List.forall_mem_cons.mpr ⟨hprep.length_recent_lt, ih⟩

/-- What a get of the counter returns is read as it was written. -/
theorem readReply_of_serves (hstocked : Stocked d name sys) {versions : List (Version ι)}
    (hlineage : Lineage sys versions) {loaded : Option StoredItem}
    (hserves : sys.Serves versions loaded) :
    readReply d.ciborium (.ok ⟨loaded.map (StoredItem.attributes d.ciborium name)⟩) =
      .ok (loaded.map CountEntry.ofItem) := by
  refine readReply_attributes d.ciborium name fun item hitem => ?_
  rcases hserves with rfl | ⟨_, hmem, rfl⟩
  · cases hitem
  · obtain rfl := Option.mem_some_iff.mp hitem
    exact hlineage.length_recent_lt hstocked.fits _ hmem

end Table

/-! ### What does not show -/

section Moves

variable {d : Deployment ι} {name : String} {sys : System ι} {s : Service ι} {a a' : Handlers ι}
  {i : ι} {next : HandlerProgram}

theorem underKey_append (puts puts' : List (SentPut ι)) :
    underKey name (puts ++ puts') = underKey name puts ++ underKey name puts' :=
  List.filter_append _ _

/-- A put that a handler may send is under the name of a counter that it visits. -/
theorem Deployment.Admits.visits {input : PutItemInput} (h : d.Admits i (.putItem input))
    (hkey : keyOf input.item = some name) : d.Visits i name := by
  rcases h with hcall | ⟨hvisits, request, rfl⟩
  · cases hcall
  · rw [PutRequest.input_item, keyOf_attributes] at hkey
    obtain rfl := Option.some.inj hkey
    exact hvisits

/-- The put of a handler that visits no counter of the name is not under the name. -/
theorem underKey_pendingPut (hvisits : ¬ d.Visits i name) (honly : next.Only (d.Admits i)) :
    underKey name ((pendingPut next).map fun input => ⟨i, input⟩).toList = [] := by
  refine List.filter_eq_nil_iff.mpr fun put hput hkey => ?_
  match next with
  | .call (.putItem input) _ =>
      obtain rfl := List.mem_singleton.mp hput
      exact hvisits (honly.1.visits (of_decide_eq_true hkey))

/-- A put under another key does not show. -/
theorem View.deliver_other (h : View d name sys s a) {put : SentPut ι}
    (hkey : keyOf put.input.item ≠ some name) (applied : Bool) :
    View d name sys (s.deliver put applied) a where
  clock := h.clock
  visiting := h.visiting
  log := by
    cases applied with
    | false => exact h.log
    | true =>
        show underKey name (put :: s.log) = _
        rw [underKey, List.filter_cons_of_neg (by simpa using hkey)]
        exact h.log
  sent := h.sent
  ready := h.ready

/-- A put under the name of the counter shows as its delivery to the item. -/
theorem View.deliver_self (h : View d name sys s a) (v : Version ι) (applied : Bool) :
    View d name sys (s.deliver (v.sentPut d name) applied)
      { a with table := a.table.deliver v applied } where
  clock := h.clock
  visiting := h.visiting
  log := by
    cases applied with
    | false => exact h.log
    | true =>
        show underKey name (v.sentPut d name :: s.log) = _ :: _
        rw [underKey, List.filter_cons_of_pos (by simp [Version.sentPut])]
        exact congrArg _ h.log
  sent := h.sent
  ready := h.ready

variable [DecidableEq ι]

/-- A step of a handler that does not visit the counter does not show. -/
theorem View.goto_other (h : View d name sys s a) (hvisits : ¬ d.Visits i name)
    (honly : next.Only (d.Admits i)) (reads : ι → List ℤ) (hreads : ∀ j ≠ i, reads j = s.reads j) :
    View d name sys { s.goto i next with reads := reads } a where
  clock := h.clock
  visiting j hj := by
    have hne : j ≠ i := by
      rintro rfl
      exact hvisits hj
    simpa [Service.goto, Function.update_of_ne hne, hreads j hne] using h.visiting j hj
  log := h.log
  sent := by
    show underKey name (_ ++ s.sent) = _
    rw [underKey_append, underKey_pendingPut hvisits honly]
    exact h.sent
  ready := h.ready

/-- A step of a handler that visits the counter shows as a step of its invocation. -/
theorem View.goto_self (h : View d name sys s a) (hvisits : d.Visits i name) {stage : Stage}
    {phase : Phase} {reads : ι → List ℤ} (hreads : ∀ j ≠ i, reads j = s.reads j)
    (htracks : Tracks d name (sys.calls i) i next (reads i) [] stage phase)
    (hclock : a'.clock = a.clock) (hstage : a'.stage = Function.update a.stage i stage)
    (hphase : a'.table.phase = Function.update a.table.phase i phase)
    (hversions : a'.table.versions = a.table.versions)
    (hsent : a'.table.sent = (phase.request.map fun request => ⟨i, request⟩).toList ++ a.table.sent)
    (hready : a.stage i = .ready → stage = .ready) :
    View d name sys { s.goto i next with reads := reads } a' where
  clock := hclock.trans h.clock
  visiting j hj := by
    rw [hstage, hphase]
    by_cases hne : j = i
    · subst hne
      simpa [Service.goto] using htracks
    · simpa [Service.goto, Function.update_of_ne hne, hreads j hne] using h.visiting j hj
  log := by
    rw [hversions]
    exact h.log
  sent := by
    show underKey name (_ ++ s.sent) = _
    rw [underKey_append, hsent, List.map_append, h.sent, htracks.pendingPut_eq hvisits]
    congr 1
    cases phase.request with
    | none => rfl
    | some request =>
        refine List.filter_eq_self.mpr fun put hput => ?_
        obtain rfl := List.mem_singleton.mp hput
        simp
  ready v hv := by
    have hcases : v.author = i ∧ stage = .ready ∨ v ∈ a.table.sent := by
      rw [hsent] at hv
      rcases List.mem_append.mp hv with hnew | hold
      · cases hrequest : phase.request with
        | none =>
            rw [hrequest] at hnew
            cases hnew
        | some request =>
            rw [hrequest] at hnew
            obtain rfl := List.mem_singleton.mp hnew
            exact Or.inl ⟨rfl, htracks.stage_eq hrequest⟩
      · exact Or.inr hold
    rw [hstage]
    by_cases hauthor : v.author = i
    · rw [hauthor, Function.update_self]
      rcases hcases with ⟨-, hstage⟩ | hold
      · exact hstage
      · exact hready (hauthor ▸ h.ready v hold)
    · rw [Function.update_of_ne hauthor]
      exact h.ready v (hcases.resolve_left fun hself => hauthor hself.1)

end Moves

/-! ### A step of the service -/

section Step

variable [DecidableEq ι] {d : Deployment ι} {name : String} {sys : System ι} {s s' : Service ι}
  {a : Handlers ι} {i : ι}

/-- The handlers answer a step of the service that shows, or it does not show. -/
def Answered (d : Deployment ι) (name : String) (sys : System ι) (a : Handlers ι)
    (e : ServiceEvent ι) (s' : Service ι) : Prop :=
  ((∀ event, ¬ Shows d name e event) ∧ View d name sys s' a) ∨
    ∃ event a', Shows d name e event ∧ HandlerStep sys a event a' ∧ View d name sys s' a'

/-- A reading of the clock that was foretold. -/
theorem View.readClock (h : View d name sys s a) (hkeyed : Keyed d s) {next : ℤ → HandlerProgram}
    (hcall : s.handler i = .call .now next) {reads : ι → List ℤ}
    (hreads : reads = Function.update s.reads i (s.reads i ++ [s.clock]))
    (hforetold : Foretold d name sys { s.goto i (next s.clock) with reads := reads }) :
    Answered d name sys a (.readClock i) { s.goto i (next s.clock) with reads := reads } := by
  have hothers : ∀ j ≠ i, reads j = s.reads j := fun j hj => by
    rw [hreads, Function.update_of_ne hj]
  have hown : reads i = s.reads i ++ [s.clock] := by rw [hreads, Function.update_self]
  by_cases hvisits : d.Visits i name
  · have htracks := h.visiting i hvisits
    obtain ⟨htag, hprefix⟩ := hforetold i hvisits
    change reads i <+: _ at hprefix
    rw [hown] at hprefix
    have hphase : ∀ phase, a.table.phase i = phase →
        a.table.phase = Function.update a.table.phase i phase := fun phase hphase => by
      rw [← hphase, Function.update_eq_self]
    rcases htracks.of_now hvisits hcall with ⟨hnil, hreplies, hstage, hloop, rfl⟩ |
      ⟨hseen, hreplies, hstage, hloop, rfl⟩
    · rw [hnil] at hprefix hown
      have hclock : (sys.calls i).visitor.lastSeen = a.clock := by
        rw [h.clock]
        exact (List.cons_prefix_cons.mp hprefix).1.symm
      refine Or.inr ⟨.readLastSeen i, a.enter i .sawVisitor, .readLastSeen hvisits,
        .readLastSeen hstage hclock, ?_⟩
      refine h.goto_self hvisits hothers ?_ rfl rfl (hphase _ hloop) rfl rfl ?_
      · rw [hown, ← htag, ← h.clock, ← hclock]
        exact .sawVisitor
      · rw [hstage]
        exact fun hready => nomatch hready
    · rw [hseen] at hprefix hown
      have hclock : (sys.calls i).now = a.clock := by
        rw [h.clock]
        exact (List.cons_prefix_cons.mp (List.cons_prefix_cons.mp hprefix).2).1.symm
      refine Or.inr ⟨.readNow i, a.enter i .ready, .readNow hvisits, .readNow hstage hclock, ?_⟩
      refine h.goto_self hvisits hothers ?_ rfl rfl (hphase _ hloop) rfl rfl fun _ => rfl
      rw [hown, ← h.clock, ← hclock]
      exact .looping (Nat.zero_add _)
  · exact Or.inl ⟨fun _ hshows => hvisits (hshows.visits rfl),
      h.goto_other hvisits (hkeyed.next hcall s.clock) reads hothers⟩

/-- A get of the counter is a get of the system. -/
theorem View.get (h : View d name sys s a) (hstocked : Stocked d name sys)
    (hlineage : Lineage sys a.table.versions) (hkeyed : Keyed d s) {input : GetItemInput}
    {next : Except BoxError GetItemOutput → HandlerProgram} {found : Option Item}
    (hcall : s.handler i = .call (.getItem input) next) (hserves : d.Serves s.log input found) :
    Answered d name sys a (.get i found) (s.goto i (next (.ok ⟨found⟩))) := by
  by_cases hvisits : d.Visits i name
  · obtain ⟨attempt, left, hleft, hreads, hreplies, hstage, hphase, rfl, rfl⟩ :=
      (h.visiting i hvisits).of_getItem hvisits hcall
    obtain ⟨loaded, rfl, hversions⟩ := h.exists_serves hstocked hserves
    refine Or.inr ⟨.act (.get i loaded), _, .get hvisits loaded,
      .act hstage (.get hphase hversions), ?_⟩
    · have htracks : Tracks d name (sys.calls i) i
          (d.answering name (sys.calls i) (match readReply d.ciborium
              (.ok ⟨loaded.map (StoredItem.attributes d.ciborium name)⟩) with
            | .error failure => .done (.error failure)
            | .ok loaded =>
                updateProgram d.ciborium d.config.tableName name (sys.calls i) left loaded))
          (s.reads i) [] .ready (afterGet (sys.calls i) attempt loaded) := by
        rw [readReply_of_serves hstocked hlineage hversions, hreads]
        exact tracks_afterGet hleft loaded
      refine h.goto_self hvisits (fun _ _ => rfl) htracks rfl ?_ ?_ ?_ ?_ fun _ => rfl
      · rw [← hstage, Function.update_eq_self]
      · rw [State.goto, State.send_phase]
      · exact State.send_versions _ _ _
      · exact State.send_sent _ _ _
  · exact Or.inl ⟨fun _ hshows => hvisits (hshows.visits rfl),
      h.goto_other hvisits (hkeyed.next hcall _) _ fun _ _ => rfl⟩

/-- A put of the counter is a put of the system. -/
theorem View.put (h : View d name sys s a) (hstocked : Stocked d name sys) (hkeyed : Keyed d s)
    {input : PutItemInput} {next : Except PutItemError Unit → HandlerProgram} {applied : Bool}
    (hcall : s.handler i = .call (.putItem input) next)
    (happlied : applied = d.holds s.log input) :
    Answered d name sys a (.put i applied) { s.deliver ⟨i, input⟩ applied with
      replies := Function.update s.replies i (applied :: s.replies i) } := by
  by_cases hvisits : d.Visits i name
  · have htracks := h.visiting i hvisits
    obtain ⟨attempt, left, loaded, request, hleft, hreads, hstage, hphase, rfl, hnext⟩ :=
      htracks.of_putItem hvisits hcall
    rw [h.holds_eq hstocked] at happlied
    refine Or.inr ⟨.act (.put i request applied), _, .put hvisits request applied,
      .act hstage (.put hphase happlied), ?_⟩
    · have hdeliver := h.deliver_self ⟨i, request⟩ applied
      refine ⟨h.clock, fun j hj => ?_, hdeliver.log, h.sent, h.ready⟩
      by_cases hne : j = i
      · subst hne
        have hwaiting : Tracks d name (sys.calls j) j (s.handler j) (s.reads j)
            (applied :: s.replies j) (a.stage j)
            (.put attempt loaded request (applied :: s.replies j)) := by
          rw [hcall, hnext, hreads, hstage]
          exact .waiting hleft
        simpa using hwaiting
      · simpa [State.goto, Function.update_of_ne hne] using h.visiting j hj
  · have hkey : keyOf input.item ≠ some name := fun hkey =>
      hvisits ((hkeyed.call hcall).visits hkey)
    have hdeliver := @View.deliver_other _ _ _ _ _ _ h ⟨i, input⟩ hkey applied
    refine Or.inl ⟨fun _ hshows => hvisits (hshows.visits rfl),
      h.clock, fun j hj => ?_, hdeliver.log, h.sent, h.ready⟩
    have hne : j ≠ i := by
      rintro rfl
      exact hvisits hj
    simpa [Function.update_of_ne hne] using h.visiting j hj

/-- A second delivery of a put of the counter is one in the system. -/
theorem View.putAgain (h : View d name sys s a) (hstocked : Stocked d name sys)
    {put : SentPut ι} {applied : Bool} (hsent : put ∈ s.sent)
    (happlied : applied = d.holds s.log put.input) :
    Answered d name sys a (.putAgain put applied) (s.deliver put applied) := by
  by_cases hkey : keyOf put.input.item = some name
  · have hmem : put ∈ underKey name s.sent := List.mem_filter.mpr ⟨hsent, decide_eq_true hkey⟩
    rw [h.sent] at hmem
    obtain ⟨v, hv, rfl⟩ := List.mem_map.mp hmem
    rw [show (v.sentPut d name).input = v.request.input d.ciborium d.config.tableName name from rfl,
      h.holds_eq hstocked] at happlied
    exact Or.inr ⟨.act (.putAgain v.author v.request applied), _, .putAgain v applied,
      .act (h.ready v hv) (.putAgain hv happlied), h.deliver_self v applied⟩
  · refine Or.inl ⟨?_, h.deliver_other hkey applied⟩
    rintro _ ⟨⟩
    exact hkey (by simp [Version.sentPut])

/-- A reply to a put of the counter is one in the system. -/
theorem View.reply (h : View d name sys s a) (hkeyed : Keyed d s) {input : PutItemInput}
    {next : Except PutItemError Unit → HandlerProgram} {applied : Bool}
    (hcall : s.handler i = .call (.putItem input) next) (hreply : applied ∈ s.replies i) :
    Answered d name sys a (.reply i applied)
      (s.goto i (next (if applied then .ok () else .error .conditionalCheckFailed))) := by
  by_cases hvisits : d.Visits i name
  · obtain ⟨attempt, left, loaded, request, hleft, hreads, hstage, hphase, -, rfl⟩ :=
      (h.visiting i hvisits).of_putItem hvisits hcall
    refine Or.inr ⟨.act (.reply i applied), _, .reply hvisits applied,
      .act hstage (.reply hphase hreply), ?_⟩
    · have htracks := @tracks_afterReply _ d name (sys.calls i) i _ _ hleft request applied
      rw [← hreads] at htracks
      refine h.goto_self hvisits (fun _ _ => rfl) htracks rfl ?_ rfl rfl ?_ fun _ => rfl
      · rw [← hstage, Function.update_eq_self]
      · rw [Phase.request_afterReply]
        rfl
  · exact Or.inl ⟨fun _ hshows => hvisits (hshows.visits rfl),
      h.goto_other hvisits (hkeyed.next hcall _) _ fun _ _ => rfl⟩

/-- An error of the client, for the counter, is one in the system. -/
theorem View.fail (h : View d name sys s a) (hvisits : d.Visits i name) {error : BoxError}
    {next : HandlerProgram} (hstage : a.stage i = .ready)
    (hphase : ∀ outcome, a.table.phase i ≠ .done outcome)
    (hreads : s.reads i = [(sys.calls i).visitor.lastSeen, (sys.calls i).now])
    (hnext : next = d.answering name (sys.calls i) (.done (.error (.error error)))) :
    Answered d name sys a (.fail i error) (s.goto i next) := by
  refine Or.inr ⟨.act (.fail i error), _, .fail hvisits error, .act hstage (.fail hphase), ?_⟩
  · have htracks : Tracks d name (sys.calls i) i next (s.reads i) [] .ready
        (.done (.error error)) := by
      rw [hreads, hnext]
      exact .done (.error error)
    refine h.goto_self hvisits (fun _ _ => rfl) htracks rfl ?_ rfl rfl rfl fun _ => rfl
    rw [← hstage, Function.update_eq_self]

/-- **Every step of the service is a step of the system, or does not show.** -/
theorem View.step (h : View d name sys s a) (hstocked : Stocked d name sys)
    (hlineage : Lineage sys a.table.versions) (hkeyed : Keyed d s) {e : ServiceEvent ι}
    (hstep : ServiceStep d s e s') (hforetold : Foretold d name sys s') :
    Answered d name sys a e s' := by
  cases hstep with
  | @tick t hclock hrep =>
      rw [← h.clock] at hclock
      exact Or.inr ⟨.tick t, _, .tick t, .tick hclock hrep, rfl, h.visiting, h.log, h.sent, h.ready⟩
  | readClock hcall => exact h.readClock hkeyed hcall rfl hforetold
  | get hcall hserves => exact h.get hstocked hlineage hkeyed hcall hserves
  | put hcall happlied => exact h.put hstocked hkeyed hcall happlied
  | putAgain hsent happlied => exact h.putAgain hstocked hsent happlied
  | reply hcall hreply => exact h.reply hkeyed hcall hreply
  | @failGet i input next error hcall =>
      by_cases hvisits : d.Visits i name
      · obtain ⟨attempt, left, -, hreads, -, hstage, hphase, -, rfl⟩ :=
          (h.visiting i hvisits).of_getItem hvisits hcall
        exact h.fail hvisits hstage (by simp [hphase]) hreads rfl
      · exact Or.inl ⟨fun _ hshows => hvisits (hshows.visits rfl),
          h.goto_other hvisits (hkeyed.next hcall _) _ fun _ _ => rfl⟩
  | @failPut i input next error hcall =>
      by_cases hvisits : d.Visits i name
      · obtain ⟨attempt, left, loaded, request, -, hreads, hstage, hphase, -, rfl⟩ :=
          (h.visiting i hvisits).of_putItem hvisits hcall
        exact h.fail hvisits hstage (by simp [hphase]) hreads rfl
      · exact Or.inl ⟨fun _ hshows => hvisits (hshows.visits rfl),
          h.goto_other hvisits (hkeyed.next hcall _) _ fun _ _ => rfl⟩

end Step

/-! ### Runs of the table -/

/-- The event of the table that an event of the handlers is, if any. -/
def HandlerEvent.table : HandlerEvent ι → Option (Event ι)
  | .act e => some e
  | _ => none

/-- What is assumed of the table, on the handlers. -/
def OnTable (Q : State ι → Event ι → Prop) (a : Handlers ι) : HandlerEvent ι → Prop
  | .act e => Q a.table e
  | _ => True

section Runs

variable [DecidableEq ι] {d : Deployment ι} {name : String} {sys : System ι} {s s' : Service ι}
  {clock : ℤ}

/-- The table of the handlers runs by itself. -/
theorem table_run {Q : State ι → Event ι → Prop} {trace : List (HandlerEvent ι)} {a : Handlers ι}
    (run : Run (fun a e a' => HandlerStep sys a e a' ∧ OnTable Q a e) (sys.arrive clock) trace a) :
    Run (fun t e t' => Step sys t e t' ∧ Q t e) sys.start (trace.filterMap HandlerEvent.table)
      a.table := by
  induction run with
  | nil => exact .nil
  | cons _ hstep ih =>
      obtain ⟨hstep, hassumed⟩ := hstep
      cases hstep with
      | tick => exact ih
      | readLastSeen => exact ih
      | readNow => exact ih
      | act hstage hstep => exact .cons ih ⟨hstep, hassumed⟩

/-- The history of the item is one, whatever is assumed. -/
theorem lineage_table {Q : State ι → Event ι → Prop} {trace : List (HandlerEvent ι)}
    {a : Handlers ι}
    (run : Run (fun a e a' => HandlerStep sys a e a' ∧ OnTable Q a e) (sys.arrive clock) trace a) :
    Lineage sys a.table.versions :=
  (Coherent.run ((table_run run).mono fun _ _ _ h => h.1)).lineage

/-! ### Runs of the service -/

/-- A handler that has read the clock has read it. -/
theorem ServiceStep.reads_prefix {e : ServiceEvent ι} (hstep : ServiceStep d s e s') (i : ι) :
    s.reads i <+: s'.reads i := by
  cases hstep with
  | @readClock j next hcall =>
      show s.reads i <+: Function.update s.reads j (s.reads j ++ [s.clock]) i
      by_cases hij : i = j
      · subst hij
        rw [Function.update_self]
        exact List.prefix_append _ _
      · rw [Function.update_of_ne hij]
  | tick => exact List.prefix_rfl
  | get => exact List.prefix_rfl
  | put => exact List.prefix_rfl
  | putAgain => exact List.prefix_rfl
  | reply => exact List.prefix_rfl
  | failGet => exact List.prefix_rfl
  | failPut => exact List.prefix_rfl

/-- What is foretold of the end of a run is foretold of each of its states. -/
theorem Foretold.back {e : ServiceEvent ι} (hstep : ServiceStep d s e s')
    (h : Foretold d name sys s') : Foretold d name sys s := fun i hvisits =>
  ⟨(h i hvisits).1, (hstep.reads_prefix i).trans (h i hvisits).2⟩

omit [DecidableEq ι] in
/-- Nobody has called the table yet. -/
theorem View.start (d : Deployment ι) (name : String) (sys : System ι) (clock : ℤ) :
    View d name sys (d.start clock) (sys.arrive clock) where
  clock := rfl
  visiting _ _ := .arrived
  log := rfl
  sent := rfl
  ready _ hv := nomatch hv

/-- **Every run of the service is a run of the system**, for every counter: with the
invocations that the handlers turn out to make, and with what is assumed of the table,
as far as it shows. -/
theorem exists_view {allowed : Service ι → ServiceEvent ι → Prop}
    {Q : State ι → Event ι → Prop} (hstocked : Stocked d name sys)
    (transfer : ∀ s a e act t, View d name sys s a → Lineage sys a.table.versions →
      Shows d name e (.act act) → Step sys a.table act t → allowed s e → Q a.table act)
    {trace : List (ServiceEvent ι)}
    (run : Run (fun s e s' => ServiceStep d s e s' ∧ allowed s e) (d.start clock) trace s)
    (hforetold : Foretold d name sys s) :
    ∃ trace' a, Run (fun a e a' => HandlerStep sys a e a' ∧ OnTable Q a e) (sys.arrive clock)
        trace' a ∧
      Mirrors (Shows d name) trace trace' ∧ View d name sys s a := by
  have sim : Simulates
      (fun s e s' => (ServiceStep d s e s' ∧ allowed s e) ∧ Foretold d name sys s')
      (fun a e a' => HandlerStep sys a e a' ∧ OnTable Q a e) (Shows d name) (sys.arrive clock)
      (fun s a => Keyed d s ∧ View d name sys s a) := by
    rintro s e s' a trace' hrun ⟨hkeyed, hview⟩ ⟨⟨hstep, hallowed⟩, hforetold⟩
    have hlineage := lineage_table hrun
    rcases hview.step hstocked hlineage hkeyed hstep hforetold with ⟨hhidden, hview'⟩ |
      ⟨event, a', hshows, hevent, hview'⟩
    · exact Or.inl ⟨hhidden, hkeyed.step hstep, hview'⟩
    · refine Or.inr ⟨event, a', hshows, ⟨hevent, ?_⟩, hkeyed.step hstep, hview'⟩
      cases hevent with
      | tick => trivial
      | readLastSeen => trivial
      | readNow => trivial
      | act hstage hact => exact transfer _ _ _ _ _ hview hlineage hshows hact hallowed
  obtain ⟨trace', a, hrun, hmirrors, -, hview⟩ := sim.run
    ⟨Keyed.start d clock, View.start d name sys clock⟩
    (run.of_last (fun _ _ _ hstep => Foretold.back hstep.1) hforetold)
  exact ⟨trace', a, hrun, hmirrors, hview⟩

/-- Every run of the service is a run of the system, with nothing assumed of the table. -/
theorem exists_view_of_run (hstocked : Stocked d name sys) {trace : List (ServiceEvent ι)}
    (run : Run (ServiceStep d) (d.start clock) trace s) (hforetold : Foretold d name sys s) :
    ∃ trace' a, Run (fun a e a' => HandlerStep sys a e a' ∧ OnTable (fun _ _ => True) a e)
        (sys.arrive clock) trace' a ∧
      Mirrors (Shows d name) trace trace' ∧ View d name sys s a :=
  exists_view hstocked (fun _ _ _ _ _ _ _ _ _ _ => trivial)
    (run.mono fun _ _ _ hstep => ⟨hstep, trivial⟩) hforetold

/-- The invocations that the handlers have turned out to make, with the clock as it is
in place of the readings that are still to come. -/
def Service.foretell (s : Service ι) (tag : ι → UInt32) (initial : Option StoredItem) :
    System ι where
  calls i := ⟨⟨tag i, (s.reads i).headD s.clock⟩, (s.reads i).tail.headD s.clock⟩
  initial := initial

omit [DecidableEq ι] in
theorem prefix_headD {α : Type} {l : List α} (hl : l.length ≤ 2) (a : α) :
    l <+: [l.headD a, l.tail.headD a] := by
  match l with
  | [] => exact List.nil_prefix
  | [_] => exact List.prefix_append _ _
  | [_, _] => exact List.prefix_rfl
  | _ :: _ :: _ :: _ =>
      simp only [List.length_cons] at hl
      omega

/-- What has been read was foretold. -/
theorem foretold_foretell {trace : List (ServiceEvent ι)}
    (run : Run (ServiceStep d) (d.start clock) trace s) {tag : ι → UInt32}
    (htag : ∀ i, d.Visits i name → tag i = d.tag i) (initial : Option StoredItem) :
    Foretold d name (s.foretell tag initial) s := fun i hvisits =>
  ⟨htag i hvisits, prefix_headD (length_reads_le run i) s.clock⟩

/-- **The service refines the system of each of its counters.**  Take any run of the
service, in which gets may be stale and puts late, repeated or failing, and any counter
whose first item is absent, or as the store writes it.  What shows of the run from the
counter is, event by event, a run of the handlers on one clock and one item, whose
invocations have the tags of the requests and the readings of the clock; at its end
every handler that visits the counter stands where its invocation stands, and the items
under the key are the versions of the item. -/
theorem service_refines_counter {trace : List (ServiceEvent ι)}
    (run : Run (ServiceStep d) (d.start clock) trace s) {initial : Option StoredItem}
    (hitems : d.items name = initial.map (StoredItem.attributes d.ciborium name))
    (hfits : ∀ item ∈ initial, item.recent.length < 2 ^ 64) :
    ∃ trace' a, Run (HandlerStep (s.foretell d.tag initial))
        ((s.foretell d.tag initial).arrive clock) trace' a ∧
      Mirrors (Shows d name) trace trace' ∧ View d name (s.foretell d.tag initial) s a := by
  have hstocked : Stocked d name (s.foretell d.tag initial) := ⟨hitems, hfits⟩
  obtain ⟨trace', a, hrun, hmirrors, hview⟩ :=
    exists_view_of_run hstocked run (foretold_foretell run (fun _ _ => rfl) initial)
  exact ⟨trace', a, hrun.mono fun _ _ _ hstep => hstep.1, hmirrors, hview⟩

/-- The race of two visitors, seen from their counter. -/
theorem service_refines_counter_twoRequests :
    ∃ s trace' a,
      Run (ServiceStep twoRequests) (twoRequests.start 1690000100000000000) raceOfTwo s ∧
      Run (HandlerStep (s.foretell twoRequests.tag none))
        ((s.foretell twoRequests.tag none).arrive 1690000100000000000) trace' a ∧
      Mirrors (Shows twoRequests "default") raceOfTwo trace' ∧
      View twoRequests "default" (s.foretell twoRequests.tag none) s a := by
  obtain ⟨s, run, -⟩ := run_raceOfTwo
  have hrun := run.mono fun _ _ _ hstep => hstep.1
  have hitems : twoRequests.items "default" =
      Option.map (StoredItem.attributes Ciborium.reference "default") none := rfl
  obtain ⟨trace', a, hview⟩ := service_refines_counter hrun hitems fun _ h => nomatch h
  exact ⟨s, trace', a, hrun, hview⟩

end Runs

end VisitorCounter

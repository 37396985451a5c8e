import VisitorCounter.Clock
import VisitorCounter.HandlerProgram

/-!
# The service

The handlers of many requests run at the same time on one table.  Each is the
program of `function_handler`: it reads the clock, gets and puts items, and goes
on when it has the reply.  The table holds the items of all counters as
attributes, and answers as generously as the one of
`VisitorCounter.Interleaving`: with any item that ever was under a key, with puts
that arrive more than once, with errors.

## Main Definitions

* `Deployment`: the crates, the configuration, the requests and the first items
* `Service`, `ServiceEvent`, `ServiceStep`: the handlers, the table, and their steps
* `serviceStep`: the steps as a computation
* `Service.Truthful`: puts are acknowledged truthfully
* `Deployment.Visits`: the handler counts a visit of a counter

## Main Results

* `serviceStep_sound`: the computation takes the steps of the relation
-/

namespace VisitorCounter

open Runs Programs

/-- What is deployed, the requests, and the items of the table before the first of them. -/
structure Deployment (ι : Type) where
  crates : Crates
  ciborium : Ciborium
  config : Config
  requests : ι → HandlerRequest
  items : String → Option Item

/-- A put by a handler. -/
structure SentPut (ι : Type) where
  author : ι
  input : PutItemInput
deriving DecidableEq, Repr

/-- The key of an item. -/
def keyOf (item : Item) : Option String :=
  match item.lookup "key" with
  | some (.s name) => some name
  | _ => none

/-- The puts under a key. -/
def underKey {ι : Type} (name : String) (puts : List (SentPut ι)) : List (SentPut ι) :=
  puts.filter fun put => keyOf put.input.item = some name

/-- A call of the store for a counter: a get of its item, or a put under one of the two
conditions. -/
def Call.For (ciborium : Ciborium) (tableName name : String) : Call → Prop
  | .now => False
  | .getItem input => input = countEntryGet tableName name
  | .putItem input => ∃ request, input = PutRequest.input ciborium tableName name request

/-- The clock, what is left of every handler and what it has read from the clock,
the puts that were applied, newest first, and the puts that were sent. -/
structure Service (ι : Type) where
  clock : ℤ
  handler : ι → HandlerProgram
  reads : ι → List ℤ
  log : List (SentPut ι)
  sent : List (SentPut ι)
  /-- The outcomes of the deliveries of the put that a handler waits for. -/
  replies : ι → List Bool

/-- What can happen next. -/
inductive ServiceEvent (ι : Type) where
  /-- The clock moves on. -/
  | tick (t : ℤ)
  /-- A handler reads the clock. -/
  | readClock (i : ι)
  /-- The reply to the get of a handler arrives. -/
  | get (i : ι) (found : Option Item)
  /-- The put a handler waits for is delivered to the table. -/
  | put (i : ι) (applied : Bool)
  /-- A put is delivered once more, whatever its handler does by now. -/
  | putAgain (put : SentPut ι) (applied : Bool)
  /-- The reply to the put of a handler arrives. -/
  | reply (i : ι) (applied : Bool)
  /-- A handler gets an error of the DynamoDB client. -/
  | fail (i : ι) (error : BoxError)
deriving DecidableEq, Repr

/-- The handler that an event moves, if any. -/
def ServiceEvent.id {ι : Type} : ServiceEvent ι → Option ι
  | .tick _ => none
  | .readClock i => some i
  | .get i _ => some i
  | .put i _ => some i
  | .putAgain _ _ => none
  | .reply i _ => some i
  | .fail i _ => some i

namespace Deployment

variable {ι : Type} (d : Deployment ι)

/-- The handler of a request. -/
def program (i : ι) : HandlerProgram :=
  handlerProgram d.crates d.ciborium d.config (d.requests i)

/-- No request has been handled. -/
def start (clock : ℤ) : Service ι where
  clock := clock
  handler := d.program
  reads _ := []
  log := []
  sent := []
  replies _ := []

/-- Every item under a key so far, newest first. -/
def versions (log : List (SentPut ι)) (name : String) : List Item :=
  (underKey name log).map (fun put => put.input.item) ++ (d.items name).toList

/-- The item under a key as it is now. -/
def current (log : List (SentPut ι)) (name : String) : Option Item :=
  (d.versions log name).head?

/-- What a get can return: the absence of the item, or any item so far. -/
def Serves (log : List (SentPut ι)) (input : GetItemInput) (found : Option Item) : Prop :=
  ∃ name, keyOf input.key = some name ∧
    (found = none ∨ ∃ item ∈ d.versions log name, found = some item)

/-- A get can return the item as it is. -/
theorem serves_current {input : GetItemInput} {name : String} (hkey : keyOf input.key = some name)
    (log : List (SentPut ι)) : d.Serves log input (d.current log name) := by
  refine ⟨name, hkey, ?_⟩
  cases hcurrent : d.current log name with
  | none => exact Or.inl rfl
  | some item => exact Or.inr ⟨item, List.mem_of_head? hcurrent, rfl⟩

/-- The condition of a put, on the item under its key. -/
def holds (log : List (SentPut ι)) (input : PutItemInput) : Bool :=
  match keyOf input.item with
  | some name => conditionHolds input (d.current log name)
  | none => false

/-- The counter that a request names. -/
abbrev counter (i : ι) : String := (d.requests i).countName

/-- The handler of a request counts a visit of a counter: the request is for the
root, complete and not by a bot, and it names the counter, which is allowed. -/
def Visits (i : ι) (name : String) : Prop :=
  (∃ info, admission d.crates (d.requests i) = .ok info) ∧ d.counter i = name ∧
    name ∈ d.config.allowedNames

/-- A call that the handler of a request may make. -/
def Admits (i : ι) (c : Call) : Prop :=
  c = .now ∨ d.Visits i (d.counter i) ∧ c.For d.ciborium d.config.tableName (d.counter i)

end Deployment

variable {ι : Type} [DecidableEq ι]

/-- The put that a program waits for. -/
def pendingPut : HandlerProgram → Option PutItemInput
  | .call (.putItem input) _ => some input
  | _ => none

namespace Service

/-- A handler goes on; if it puts next, the put is sent. -/
def goto (s : Service ι) (i : ι) (next : HandlerProgram) : Service ι :=
  { s with
    handler := Function.update s.handler i next
    sent := ((pendingPut next).map fun input => ⟨i, input⟩).toList ++ s.sent
    replies := Function.update s.replies i [] }

/-- A put arrives at the table and is applied or not. -/
def deliver (s : Service ι) (put : SentPut ι) (applied : Bool) : Service ι :=
  { s with log := if applied then put :: s.log else s.log }

omit [DecidableEq ι] in
@[simp] theorem deliver_handler (s : Service ι) (put : SentPut ι) (applied : Bool) :
    (s.deliver put applied).handler = s.handler := rfl

omit [DecidableEq ι] in
@[simp] theorem deliver_reads (s : Service ι) (put : SentPut ι) (applied : Bool) :
    (s.deliver put applied).reads = s.reads := rfl

end Service

/-- Puts are acknowledged truthfully: a put reaches the table once, its handler gets the
outcome as the reply, and an error of the client means that it has not reached the table. -/
def Service.Truthful (s : Service ι) : ServiceEvent ι → Prop
  | .put i _ => s.replies i = []
  | .putAgain _ _ => False
  | .fail i _ => s.replies i = []
  | _ => True

instance Service.decidableTruthful (s : Service ι) :
    (e : ServiceEvent ι) → Decidable (s.Truthful e)
  | .tick _ => isTrue trivial
  | .readClock _ => isTrue trivial
  | .get _ _ => isTrue trivial
  | .put i _ => inferInstanceAs (Decidable (s.replies i = []))
  | .putAgain _ _ => isFalse id
  | .reply _ _ => isTrue trivial
  | .fail i _ => inferInstanceAs (Decidable (s.replies i = []))

/-- One step of the service. -/
inductive ServiceStep (d : Deployment ι) (s : Service ι) : ServiceEvent ι → Service ι → Prop
  | tick {t : ℤ} (hclock : s.clock ≤ t) (hrep : Representable t) :
      ServiceStep d s (.tick t) { s with clock := t }
  | readClock {i : ι} {next : ℤ → HandlerProgram} (hcall : s.handler i = .call .now next) :
      ServiceStep d s (.readClock i)
        { s.goto i (next s.clock) with
          reads := Function.update s.reads i (s.reads i ++ [s.clock]) }
  | get {i : ι} {input : GetItemInput} {next : Except BoxError GetItemOutput → HandlerProgram}
      {found : Option Item} (hcall : s.handler i = .call (.getItem input) next)
      (hserves : d.Serves s.log input found) :
      ServiceStep d s (.get i found) (s.goto i (next (.ok ⟨found⟩)))
  | put {i : ι} {input : PutItemInput} {next : Except PutItemError Unit → HandlerProgram}
      {applied : Bool} (hcall : s.handler i = .call (.putItem input) next)
      (happlied : applied = d.holds s.log input) :
      ServiceStep d s (.put i applied)
        { s.deliver ⟨i, input⟩ applied with
          replies := Function.update s.replies i (applied :: s.replies i) }
  | putAgain {put : SentPut ι} {applied : Bool} (hsent : put ∈ s.sent)
      (happlied : applied = d.holds s.log put.input) :
      ServiceStep d s (.putAgain put applied) (s.deliver put applied)
  | reply {i : ι} {input : PutItemInput} {next : Except PutItemError Unit → HandlerProgram}
      {applied : Bool} (hcall : s.handler i = .call (.putItem input) next)
      (hreply : applied ∈ s.replies i) :
      ServiceStep d s (.reply i applied)
        (s.goto i (next (if applied then .ok () else .error .conditionalCheckFailed)))
  | failGet {i : ι} {input : GetItemInput} {next : Except BoxError GetItemOutput → HandlerProgram}
      {error : BoxError} (hcall : s.handler i = .call (.getItem input) next) :
      ServiceStep d s (.fail i error) (s.goto i (next (.error error)))
  | failPut {i : ι} {input : PutItemInput} {next : Except PutItemError Unit → HandlerProgram}
      {error : BoxError} (hcall : s.handler i = .call (.putItem input) next) :
      ServiceStep d s (.fail i error) (s.goto i (next (.error (.other error))))

/-- One step, as a computation. -/
def serviceStep (d : Deployment ι) (s : Service ι) : ServiceEvent ι → Option (Service ι)
  | .tick t => if s.clock ≤ t ∧ Representable t then some { s with clock := t } else none
  | .readClock i =>
      match s.handler i with
      | .call .now next => some { s.goto i (next s.clock) with
          reads := Function.update s.reads i (s.reads i ++ [s.clock]) }
      | _ => none
  | .get i found =>
      match s.handler i with
      | .call (.getItem input) next =>
          match keyOf input.key with
          | some name =>
              if found = none ∨ ∃ item ∈ d.versions s.log name, found = some item then
                some (s.goto i (next (.ok ⟨found⟩)))
              else none
          | none => none
      | _ => none
  | .put i applied =>
      match s.handler i with
      | .call (.putItem input) _ =>
          if applied = d.holds s.log input then
            some { s.deliver ⟨i, input⟩ applied with
              replies := Function.update s.replies i (applied :: s.replies i) }
          else none
      | _ => none
  | .putAgain put applied =>
      if put ∈ s.sent ∧ applied = d.holds s.log put.input then some (s.deliver put applied)
      else none
  | .reply i applied =>
      match s.handler i with
      | .call (.putItem _) next =>
          if applied ∈ s.replies i then
            some (s.goto i (next (if applied then .ok () else .error .conditionalCheckFailed)))
          else none
      | _ => none
  | .fail i error =>
      match s.handler i with
      | .call (.getItem _) next => some (s.goto i (next (.error error)))
      | .call (.putItem _) next => some (s.goto i (next (.error (.other error))))
      | _ => none

/-- The computation takes the steps of the relation. -/
theorem serviceStep_sound {d : Deployment ι} {s s' : Service ι} {e : ServiceEvent ι}
    (h : serviceStep d s e = some s') : ServiceStep d s e s' := by
  cases e with
  | tick t =>
      simp only [serviceStep, Option.ite_none_right_eq_some] at h
      obtain ⟨⟨hclock, hrep⟩, h⟩ := h
      obtain rfl := Option.some.inj h
      exact .tick hclock hrep
  | readClock i =>
      simp only [serviceStep] at h
      split at h
      · rename_i next hcall
        obtain rfl := Option.some.inj h
        exact .readClock hcall
      · cases h
  | get i found =>
      simp only [serviceStep] at h
      split at h
      · rename_i input next hcall
        split at h
        · rename_i name hkey
          obtain ⟨hfound, h⟩ := Option.ite_none_right_eq_some.mp h
          obtain rfl := Option.some.inj h
          exact .get hcall ⟨name, hkey, hfound⟩
        · cases h
      · cases h
  | put i applied =>
      simp only [serviceStep] at h
      split at h
      · rename_i input next hcall
        obtain ⟨happlied, h⟩ := Option.ite_none_right_eq_some.mp h
        obtain rfl := Option.some.inj h
        exact .put hcall happlied
      · cases h
  | putAgain put applied =>
      simp only [serviceStep, Option.ite_none_right_eq_some] at h
      obtain ⟨⟨hsent, happlied⟩, h⟩ := h
      obtain rfl := Option.some.inj h
      exact .putAgain hsent happlied
  | reply i applied =>
      simp only [serviceStep] at h
      split at h
      · rename_i input next hcall
        obtain ⟨hreply, h⟩ := Option.ite_none_right_eq_some.mp h
        obtain rfl := Option.some.inj h
        exact .reply hcall hreply
      · cases h
  | fail i error =>
      simp only [serviceStep] at h
      split at h
      · rename_i input next hcall
        obtain rfl := Option.some.inj h
        exact .failGet hcall
      · rename_i input next hcall
        obtain rfl := Option.some.inj h
        exact .failPut hcall
      · cases h

end VisitorCounter

import VisitorCounter.Handler
import VisitorCounter.Library.Programs

/-!
# The handler as a program

The methods of the store and the handler are written for any monad that offers
the calls.  Here they are taken apart call by call, whatever the monad.  In the
monad of programs they become trees of calls: what a handler does next, for every
reply it may get.  Such a tree, run in a monad that offers the calls, is the
handler in that monad.

## Main Definitions

* `preparePut`: the work of the retry loop between its get and its put
* `Call`, `callingStore`, `callingLambda`: the calls of a handler
* `attemptsProgram`, `updateProgram`, `putProgram`: the retry loop as a program
* `handlerProgram`: the handler as a program

## Main Results

* `Store.attempts_run_succ`: one round of the retry loop
* `functionHandler_run`: the handler reads the clock twice and calls the store
* `preparePut_eq`: the put of a round is the one of `Invocation.attempt`
* `interp_handlerProgram`: the program, run in any monad, is the handler
-/

namespace VisitorCounter

open Programs

/-! ### The store, call by call -/

section Store

variable {m : Type → Type} [Monad m] [LawfulMonad m] (store : Store m) (name : String)
  (inv : Invocation)

/-- The put that the loop body makes of the loaded entry, and the count in it. -/
def preparePut (ciborium : Ciborium) (tableName name : String) (inv : Invocation) :
    Option CountEntry → Except Panic (PutItemInput × UInt64)
  | some countEntry => do
      let recorded ← recordVisit countEntry inv.visitor inv.now
      let pruned ← pruneVisitors recorded inv.now maxRecentVisitors
      let input ← countEntryInput ciborium tableName name countEntry.count pruned
      return (input, pruned.count)
  | none => do
      let input ← newCountEntryInput ciborium tableName name inv.visitor
      return (input, 1)

/-- Code that may panic, with what follows it. -/
theorem run_panicking_bind {α β : Type} (x : Except Panic α) (f : α → ExceptT Failure m β) :
    (panicking x >>= f).run = match x with
      | .error panic => pure (.error (.panic panic))
      | .ok a => (f a).run := by
  rw [ExceptT.run_bind]
  cases x with
  | error panic => exact pure_bind _ _
  | ok a => exact pure_bind _ _

/-- The `?` operator, with what follows it. -/
theorem run_propagate_bind {α β : Type} (x : Except BoxError α) (f : α → ExceptT Failure m β) :
    (propagate x >>= f).run = match x with
      | .error error => pure (.error (.error error))
      | .ok a => (f a).run := by
  rw [ExceptT.run_bind]
  cases x with
  | error panic => exact pure_bind _ _
  | ok a => exact pure_bind _ _

/-- `get_count_entry` is one get. -/
theorem Store.getCountEntry_run : (store.getCountEntry name).run =
    store.client.getItem (countEntryGet store.tableName name) >>= fun reply =>
      pure (readReply store.ciborium reply) := by
  refine (ExceptT.run_bind_lift _ _).trans ?_
  congr 1
  funext reply
  rw [run_propagate_bind]
  match reply with
  | .error error => rfl
  | .ok ⟨none⟩ => rfl
  | .ok ⟨some item⟩ =>
      dsimp only
      rw [run_propagate_bind, readReply]
      cases CountEntry.ofAttributes store.ciborium item with
      | error error => rfl
      | ok entry => rfl

/-- The loop body from the put on. -/
def Store.putOrRetry (left : ℕ) (input : PutItemInput) (count : UInt64) :
    m (Except Failure UInt64) := do
  match putReply (← store.client.putItem input) with
  | .error error => return .error (.error error)
  | .ok true => return .ok count
  | .ok false => (store.attempts inv.visitor name inv.now left).run

/-- The loop body from the loaded entry on. -/
def Store.update (left : ℕ) (loaded : Option CountEntry) : m (Except Failure UInt64) :=
  match preparePut store.ciborium store.tableName name inv loaded with
  | .error panic => pure (.error (.panic panic))
  | .ok (input, count) => store.putOrRetry name inv left input count

/-- The put methods, with what follows them in the loop. -/
theorem Store.run_put_or_retry (left : ℕ) (input : Except Panic PutItemInput) (count : UInt64) :
    (do
      if ← (do
          let input ← panicking input
          propagate (putReply (← store.client.putItem input)) : ExceptT Failure m Bool)
        then return count
        else store.attempts inv.visitor name inv.now left : ExceptT Failure m UInt64).run =
      match input with
      | .error panic => pure (.error (.panic panic))
      | .ok input => store.putOrRetry name inv left input count := by
  rw [bind_assoc, run_panicking_bind]
  cases input with
  | error panic => rfl
  | ok input =>
      dsimp only
      rw [bind_assoc]
      refine (ExceptT.run_bind_lift _ _).trans ?_
      rw [Store.putOrRetry]
      congr 1
      funext reply
      rw [run_propagate_bind]
      match putReply reply with
      | .error error => rfl
      | .ok true => rfl
      | .ok false => rfl

/-- **One round of the retry loop**: a get, the work on the entry, and a put. -/
theorem Store.attempts_run_succ (left : ℕ) :
    (store.attempts inv.visitor name inv.now (left + 1)).run =
      store.client.getItem (countEntryGet store.tableName name) >>= fun reply =>
        match readReply store.ciborium reply with
        | .error failure => pure (.error failure)
        | .ok loaded => store.update name inv left loaded := by
  rw [Store.attempts, ExceptT.run_bind, store.getCountEntry_run, bind_assoc]
  congr 1
  funext reply
  rw [pure_bind]
  match readReply store.ciborium reply with
  | .error failure => rfl
  | .ok none =>
      refine (store.run_put_or_retry name inv left _ _).trans ?_
      simp only [Store.update, preparePut]
      cases newCountEntryInput store.ciborium store.tableName name inv.visitor with
      | error panic => rfl
      | ok input => rfl
  | .ok (some countEntry) =>
      simp only [Store.update, preparePut]
      rw [run_panicking_bind]
      cases recordVisit countEntry inv.visitor inv.now with
      | error panic => rfl
      | ok recorded =>
          rw [ok_bind]
          dsimp only
          rw [run_panicking_bind]
          cases pruneVisitors recorded inv.now maxRecentVisitors with
          | error panic => rfl
          | ok pruned =>
              rw [ok_bind]
              refine (store.run_put_or_retry name inv left _ _).trans ?_
              cases countEntryInput store.ciborium store.tableName name countEntry.count pruned with
              | error panic => rfl
              | ok input => rfl

end Store

/-! ### The handler, call by call -/

section Handler

variable {m : Type → Type} [Monad m] [LawfulMonad m]

/-- What the handler makes of the result of the store. -/
def answer (crates : Crates) (config : Config) (visitor : Visitor) (countName : String) :
    Except Failure UInt64 → Except HandlerFailure Response
  | .ok count => respond crates config visitor countName count
  | .error failure => .error (.stopped failure)

/-- A step that may stop the handler, with what follows it. -/
theorem run_stopping_bind {α β : Type} (x : ExceptT Failure m α)
    (f : α → ExceptT HandlerFailure m β) :
    (stopping x >>= f).run = x.run >>= fun result =>
      match result with
      | .error failure => pure (.error (.stopped failure))
      | .ok a => (f a).run := by
  rw [ExceptT.run_bind, stopping, ExceptT.run_adapt, map_eq_pure_bind, bind_assoc]
  congr 1
  funext result
  rw [pure_bind]
  cases result with
  | error failure => rfl
  | ok a => rfl

/-- The handler after the first reading of the clock. -/
def Lambda.visit (lambda : Lambda m) (crates : Crates) (config : Config) (name : String)
    (visitor : Visitor) : m (Except HandlerFailure Response) := do
  if config.allowedNames.any fun allowed => allowed == name then
    let result ← (lambda.store.maybeIncrementVisitors visitor name (← lambda.now)).run
    return answer crates config visitor name result
  else return .ok notFound

/-- **What the handler does**: it reads the clock twice and calls the store, or it
answers before that. -/
theorem functionHandler_run (lambda : Lambda m) (crates : Crates) (config : Config)
    (event : HandlerRequest) : (functionHandler crates config lambda event).run =
      match admission crates event with
      | .error result => pure result
      | .ok info => lambda.now >>= fun seen =>
          lambda.visit crates config event.countName
          (Visitor.ofRequestInfo crates.md5 seen info) := by
  rw [functionHandler, admission]
  split
  · rfl
  · rw [run_stopping_bind]
    cases hrequest : RequestInfo.tryFrom crates.isBot event.toRequest with
    | error panic => exact pure_bind _ _
    | ok accepted =>
        refine (pure_bind _ _).trans ?_
        match accepted with
        | .error .looksLikeABot => rfl
        | .error .missingUserAgent => rfl
        | .error .missingSourceIp => rfl
        | .ok info =>
            refine (ExceptT.run_bind_lift _ _).trans ?_
            congr 1
            funext seen
            rw [Lambda.visit]
            cases hallowed : config.allowedNames.any fun allowed => allowed == event.countName with
            | false =>
                simp only [hallowed]
                rfl
            | true =>
                simp only [hallowed]
                refine (ExceptT.run_bind_lift _ _).trans ?_
                rw [if_pos trivial]
                congr 1
                funext now
                rw [run_stopping_bind]
                congr 1
                funext result
                cases result with
                | error failure => rfl
                | ok count => rfl

end Handler

/-! ### Calls -/

/-- What a handler calls. -/
inductive Call where
  | now
  | getItem (input : GetItemInput)
  | putItem (input : PutItemInput)
deriving DecidableEq, Repr

/-- What it hears. -/
@[reducible] def Call.Reply : Call → Type
  | .now => ℤ
  | .getItem _ => Except BoxError GetItemOutput
  | .putItem _ => Except PutItemError Unit

/-- The client whose calls are calls of the program. -/
def callingClient : Dynamo (Program Call Call.Reply) where
  getItem input := Program.perform (Call.getItem input)
  putItem input := Program.perform (Call.putItem input)

/-- A store on that client. -/
def callingStore (ciborium : Ciborium) (tableName : String) :
    Store (Program Call Call.Reply) where
  client := callingClient
  ciborium := ciborium
  tableName := tableName

/-- What a handler is offered, as calls. -/
def callingLambda (ciborium : Ciborium) (tableName : String) :
    Lambda (Program Call Call.Reply) where
  now := Program.perform Call.now
  store := callingStore ciborium tableName

section Programs

variable (ciborium : Ciborium) (tableName name : String) (inv : Invocation)

/-- The retry loop as a program. -/
def attemptsProgram (left : ℕ) : Program Call Call.Reply (Except Failure UInt64) :=
  ((callingStore ciborium tableName).attempts inv.visitor name inv.now left).run

/-- The loop body from the put on. -/
def putProgram (left : ℕ) (input : PutItemInput) (count : UInt64) :
    Program Call Call.Reply (Except Failure UInt64) :=
  (callingStore ciborium tableName).putOrRetry name inv left input count

/-- The loop body from the loaded entry on. -/
def updateProgram (left : ℕ) (loaded : Option CountEntry) :
    Program Call Call.Reply (Except Failure UInt64) :=
  (callingStore ciborium tableName).update name inv left loaded

theorem attemptsProgram_succ (left : ℕ) : attemptsProgram ciborium tableName name inv (left + 1) =
    .call (.getItem (countEntryGet tableName name)) fun reply =>
      match readReply ciborium reply with
      | .error failure => .done (.error failure)
      | .ok loaded => updateProgram ciborium tableName name inv left loaded :=
  (callingStore ciborium tableName).attempts_run_succ name inv left

theorem updateProgram_eq (left : ℕ) (loaded : Option CountEntry) :
    updateProgram ciborium tableName name inv left loaded =
      match preparePut ciborium tableName name inv loaded with
      | .error panic => .done (.error (.panic panic))
      | .ok (input, count) => putProgram ciborium tableName name inv left input count := rfl

theorem putProgram_eq (left : ℕ) (input : PutItemInput) (count : UInt64) :
    putProgram ciborium tableName name inv left input count = .call (.putItem input) fun reply =>
      match putReply reply with
      | .error error => .done (.error (.error error))
      | .ok true => .done (.ok count)
      | .ok false => attemptsProgram ciborium tableName name inv left := rfl

/-! ### The puts of an attempt -/

/-- The input of the put that a request stands for. -/
def PutRequest.input (ciborium : Ciborium) (tableName name : String) (request : PutRequest) :
    PutItemInput :=
  match request.expected with
  | none => {
      tableName := tableName
      conditionExpression := "attribute_not_exists(#k)"
      expressionAttributeNames := [("#k", "key")]
      expressionAttributeValues := []
      item := request.item.attributes ciborium name }
  | some count => {
      tableName := tableName
      conditionExpression := "#c = :count"
      expressionAttributeNames := [("#c", "count")]
      expressionAttributeValues := [(":count", .n (u64ToString count))]
      item := request.item.attributes ciborium name }

@[simp] theorem PutRequest.input_item (request : PutRequest) :
    (request.input ciborium tableName name).item = request.item.attributes ciborium name := by
  unfold PutRequest.input
  split <;> rfl

theorem countEntryInput_eq (initialCount : UInt64) (entry : CountEntry) :
    countEntryInput ciborium tableName name initialCount entry =
      (countEntryPut initialCount entry).map (PutRequest.input ciborium tableName name) := by
  rw [countEntryInput, countEntryPut]
  cases StoredCountEntry.ofCountEntry entry with
  | error panic => rfl
  | ok stored => rfl

theorem newCountEntryInput_eq (visitor : Visitor) :
    newCountEntryInput ciborium tableName name visitor =
      (newCountEntryPut visitor).map (PutRequest.input ciborium tableName name) := by
  rw [newCountEntryInput, newCountEntryPut]
  cases StoredVisitor.ofVisitor visitor with
  | error panic => rfl
  | ok stored =>
      show Except.ok _ = Except.ok (PutRequest.input ciborium tableName name _)
      rw [PutRequest.input, StoredItem.attributes, u64ToString_one]

/-- **The put of the program is the one of the attempt**, on every item that can be read. -/
theorem preparePut_eq (stored : Option StoredItem) :
    preparePut ciborium tableName name inv (stored.map CountEntry.ofItem) =
      (inv.attempt stored).map fun request =>
        (request.input ciborium tableName name, request.item.count) := by
  cases stored with
  | none =>
      rw [Option.map_none, preparePut, newCountEntryInput_eq, Invocation.attempt, newCountEntryPut]
      cases StoredVisitor.ofVisitor inv.visitor with
      | error panic => rfl
      | ok stored => rfl
  | some item =>
      rw [Option.map_some, preparePut, Invocation.attempt]
      cases recordVisit (CountEntry.ofItem item) inv.visitor inv.now with
      | error panic => rfl
      | ok recorded =>
          rw [ok_bind, ok_bind]
          cases pruneVisitors recorded inv.now maxRecentVisitors with
          | error panic => rfl
          | ok pruned =>
              rw [ok_bind, ok_bind, countEntryInput_eq, countEntryPut]
              cases StoredCountEntry.ofCountEntry pruned with
              | error panic => rfl
              | ok stored => rfl

/-- What `get_count_entry` makes of an item that was stored. -/
theorem readReply_attributes {stored : Option StoredItem}
    (hfits : ∀ item ∈ stored, item.recent.length < 2 ^ 64) :
    readReply ciborium (.ok ⟨stored.map (StoredItem.attributes ciborium name)⟩) =
      .ok (stored.map CountEntry.ofItem) := by
  cases stored with
  | none => rfl
  | some item =>
      simp only [Option.map_some, readReply, ofAttributes_attributes ciborium name (hfits item rfl)]

end Programs

/-! ### The handler as a program -/

/-- A handler, or what is left of it. -/
abbrev HandlerProgram := Program Call Call.Reply (Except HandlerFailure Response)

/-- The handler of a request. -/
def handlerProgram (crates : Crates) (ciborium : Ciborium) (config : Config)
    (event : HandlerRequest) : HandlerProgram :=
  (functionHandler crates config (callingLambda ciborium config.tableName) event).run

/-- The handler after the first reading of the clock. -/
def visitProgram (crates : Crates) (ciborium : Ciborium) (config : Config) (name : String)
    (visitor : Visitor) : HandlerProgram :=
  (callingLambda ciborium config.tableName).visit crates config name visitor

theorem visitProgram_eq (crates : Crates) (ciborium : Ciborium) (config : Config) (name : String)
    (visitor : Visitor) : visitProgram crates ciborium config name visitor =
      if config.allowedNames.any fun allowed => allowed == name then
        .call .now fun now =>
          attemptsProgram ciborium config.tableName name ⟨visitor, now⟩
              maxAttemptsForOptimisticLocking >>= fun result =>
            .done (answer crates config visitor name result)
      else .done (.ok notFound) := rfl

theorem handlerProgram_eq (crates : Crates) (ciborium : Ciborium) (config : Config)
    (event : HandlerRequest) : handlerProgram crates ciborium config event =
      match admission crates event with
      | .error result => .done result
      | .ok info => .call .now fun seen => visitProgram crates ciborium config event.countName
          (Visitor.ofRequestInfo crates.md5 seen info) :=
  functionHandler_run _ crates config event

/-! ### Running the program -/

/-- What a lambda offers for a call. -/
def Lambda.offer {m : Type → Type} (lambda : Lambda m) : (c : Call) → m c.Reply
  | .now => lambda.now
  | .getItem input => lambda.store.client.getItem input
  | .putItem input => lambda.store.client.putItem input

section Interp

variable {m : Type → Type} [Monad m] [LawfulMonad m] (lambda : Lambda m)

/-- The retry loop as a program, run in any monad, is the retry loop. -/
theorem interp_attemptsProgram (name : String) (inv : Invocation) (left : ℕ) :
    (attemptsProgram lambda.store.ciborium lambda.store.tableName name inv left).interp
      lambda.offer = (lambda.store.attempts inv.visitor name inv.now left).run := by
  induction left with
  | zero => rfl
  | succ left ih =>
      rw [attemptsProgram_succ, Program.interp_call, Store.attempts_run_succ]
      show lambda.store.client.getItem _ >>= _ = _
      congr 1
      funext reply
      cases readReply lambda.store.ciborium reply with
      | error failure => rfl
      | ok loaded =>
          simp only [updateProgram_eq, Store.update]
          cases preparePut lambda.store.ciborium lambda.store.tableName name inv loaded with
          | error panic => rfl
          | ok put =>
              dsimp only
              rw [putProgram_eq, Program.interp_call, Store.putOrRetry]
              show lambda.store.client.putItem _ >>= _ = _
              congr 1
              funext reply
              match putReply reply with
              | .error error => rfl
              | .ok true => rfl
              | .ok false => exact ih

/-- **The program of a handler, run in any monad, is the handler.** -/
theorem interp_handlerProgram (crates : Crates) (config : Config)
    (htable : lambda.store.tableName = config.tableName) (event : HandlerRequest) :
    (handlerProgram crates lambda.store.ciborium config event).interp lambda.offer =
      (functionHandler crates config lambda event).run := by
  rw [handlerProgram_eq, functionHandler_run]
  cases admission crates event with
  | error result => rfl
  | ok info =>
      show lambda.now >>= _ = lambda.now >>= _
      congr 1
      funext seen
      dsimp only
      rw [visitProgram_eq, Lambda.visit]
      split
      · show lambda.now >>= _ = lambda.now >>= _
        congr 1
        funext now
        rw [← htable, Program.interp_bind, interp_attemptsProgram]
        rfl
      · rfl

end Interp

end VisitorCounter

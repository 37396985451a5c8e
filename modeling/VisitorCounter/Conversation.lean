import VisitorCounter.RoundTrip

/-!
# One call against any client

A call of `maybe_increment_visitors` sees its store only through the replies to
its gets and puts.  Here the client is arbitrary: it serves whatever items it
likes, damaged ones included, and answers the puts as it likes.  What the call
then says and returns is described by a grammar of conversations, and the order
of gets and puts, the conditions of the puts and the meaning of the result are
read off the grammar.

## Main Definitions

* `Exchange`, `logging`, `converse`: what a call says to its client and hears
* `PutAfter`: what is put after a get
* `Conversation`: the conversations of a number of attempts
* `Orderly`: what every conversation of a call has in common

## Main Results

* `converses_attempts`: the retry loop holds a conversation
* `Conversation.orderly`: every conversation is orderly
* `call_orderly`: a call against any client
-/

namespace VisitorCounter

open RecencyList

/-- A call of the client, with its reply. -/
inductive Exchange where
  | get (input : GetItemInput) (reply : Except BoxError GetItemOutput)
  | put (input : PutItemInput) (reply : Except PutItemError Unit)

/-- The exchange is a get. -/
def Exchange.isGet : Exchange → Bool
  | .get _ _ => true
  | .put _ _ => false

@[simp] theorem Exchange.isGet_get (input : GetItemInput) (reply : Except BoxError GetItemOutput) :
    (Exchange.get input reply).isGet = true := rfl

@[simp] theorem Exchange.isGet_put (input : PutItemInput) (reply : Except PutItemError Unit) :
    (Exchange.put input reply).isGet = false := rfl

section Client

variable {σ : Type}

/-- A client that keeps a log of its calls and replies, oldest first. -/
def logging (client : Dynamo (StateM σ)) : Dynamo (StateM (List Exchange × σ)) where
  getItem input := do
    let (log, s) ← get
    let (reply, s) := (client.getItem input).run s
    set (log ++ [Exchange.get input reply], s)
    return reply
  putItem input := do
    let (log, s) ← get
    let (reply, s) := (client.putItem input).run s
    set (log ++ [Exchange.put input reply], s)
    return reply

/-- The log and the result of a call against a client. -/
def converse (client : Dynamo (StateM σ)) (ciborium : Ciborium) (tableName name : String)
    (inv : Invocation) (s : σ) : List Exchange × Except Failure UInt64 :=
  let out := ((Store.mk (logging client) ciborium tableName).maybeIncrementVisitors inv.visitor
    name inv.now).run.run ([], s)
  (out.2.1, out.1)

end Client

variable (ciborium : Ciborium) (tableName name : String) (inv : Invocation)

/-- A get does not serve an entry that is later than `now`, nor the last count. -/
def Plausible : Exchange → Prop
  | .get _ (.ok ⟨some item⟩) => ∀ entry, CountEntry.ofAttributes ciborium item = .ok entry →
      entry.count.toNat < 2 ^ 64 - 1 ∧ ∀ v ∈ entry.recentVisitors, v.lastSeen ≤ inv.now
  | _ => True

/-- The first entry under the visitor's tag is recent. -/
def Known (entry : CountEntry) : Prop :=
  ∃ found, entry.recentVisitors.find? (fun v => v.tag == inv.visitor.tag) = some found ∧
    Recent inv.now found.lastSeen

/-- After a get that found nothing, `input` creates the item under the condition
that there is none; after one that found an item, `input` replaces it under the
condition that its count is the one that was read.  It writes `count`. -/
def PutAfter (loaded : Option Item) (input : PutItemInput) (count : UInt64) : Prop :=
  match loaded with
  | none => count = 1 ∧ input = {
      tableName := tableName
      conditionExpression := "attribute_not_exists(#k)"
      expressionAttributeNames := [("#k", "key")]
      expressionAttributeValues := []
      item := StoredItem.attributes ciborium name ⟨1, ⟨[inv.visitor.stored]⟩⟩ }
  | some item => ∃ entry, CountEntry.ofAttributes ciborium item = .ok entry ∧
      (Known inv entry → count = entry.count) ∧
      (¬ Known inv entry → count.toNat = entry.count.toNat + 1) ∧
      ∃ visitors, input = {
        tableName := tableName
        conditionExpression := "#c = :count"
        expressionAttributeNames := [("#c", "count")]
        expressionAttributeValues := [(":count", .n (u64ToString entry.count))]
        item := StoredItem.attributes ciborium name ⟨count, ⟨visitors⟩⟩ }

/-- The conversations that the retry loop can hold with a number of attempts left,
and their results. -/
inductive Conversation : ℕ → List Exchange → Except Failure UInt64 → Prop
  | exhausted : Conversation 0 [] (.error (.error maxAttemptsExceeded))
  | getFailed {left : ℕ} (error : BoxError) :
      Conversation (left + 1) [.get (countEntryGet tableName name) (.error error)]
        (.error (.error error))
  | damaged {left : ℕ} {item : Item} {error : BoxError}
      (hitem : CountEntry.ofAttributes ciborium item = .error error) :
      Conversation (left + 1) [.get (countEntryGet tableName name) (.ok ⟨some item⟩)]
        (.error (.error error))
  | acknowledged {left : ℕ} {loaded : Option Item} {input : PutItemInput} {count : UInt64}
      (hput : PutAfter ciborium tableName name inv loaded input count) :
      Conversation (left + 1) [.get (countEntryGet tableName name) (.ok ⟨loaded⟩),
        .put input (.ok ())] (.ok count)
  | putFailed {left : ℕ} {loaded : Option Item} {input : PutItemInput} {count : UInt64}
      (hput : PutAfter ciborium tableName name inv loaded input count) (error : BoxError) :
      Conversation (left + 1) [.get (countEntryGet tableName name) (.ok ⟨loaded⟩),
        .put input (.error (.other error))] (.error (.error error))
  | conflict {left : ℕ} {loaded : Option Item} {input : PutItemInput} {count : UInt64}
      {rest : List Exchange} {result : Except Failure UInt64}
      (hput : PutAfter ciborium tableName name inv loaded input count) :
      Conversation left rest result →
      Conversation (left + 1) (.get (countEntryGet tableName name) (.ok ⟨loaded⟩) ::
        .put input (.error .conditionalCheckFailed) :: rest) result

/-! ### The retry loop holds a conversation -/

variable {ciborium tableName name inv}

/-- A loaded entry is that of some item. -/
theorem exists_ofItem_of_ofAttributes {item : Item} {entry : CountEntry}
    (h : CountEntry.ofAttributes ciborium item = .ok entry) :
    ∃ stored, entry = CountEntry.ofItem stored := by
  simp only [CountEntry.ofAttributes, bind_eq_ok_iff, pure, Except.pure, Except.ok.injEq] at h
  obtain ⟨count, -, value, -, rfl⟩ := h
  exact ⟨⟨count, value⟩, rfl⟩

/-- Between a get that found a readable item and the put nothing panics, and the
put is as it should be. -/
theorem exists_putAfter_some (hseen : inv.visitor.lastSeen ≤ inv.now)
    (hrepSeen : Representable inv.visitor.lastSeen) (hrepNow : Representable inv.now)
    {item : Item} {entry : CountEntry} (hentry : CountEntry.ofAttributes ciborium item = .ok entry)
    (hcount : entry.count.toNat < 2 ^ 64 - 1)
    (hle : ∀ v ∈ entry.recentVisitors, v.lastSeen ≤ inv.now) :
    ∃ recorded pruned input, recordVisit entry inv.visitor inv.now = .ok recorded ∧
      pruneVisitors recorded inv.now maxRecentVisitors = .ok pruned ∧
      countEntryInput ciborium tableName name entry.count pruned = .ok input ∧
      PutAfter ciborium tableName name inv (some item) input pruned.count := by
  obtain ⟨stored, rfl⟩ := exists_ofItem_of_ofAttributes hentry
  have hloaded : ∀ e ∈ entriesOf (some stored), e.time ≤ inv.now := fun e he =>
    hle _ (List.mem_map_of_mem he)
  obtain ⟨request, hattempt⟩ := exists_attempt_eq_ok hseen hrepSeen hrepNow hloaded
  have hsteps := hattempt
  simp only [Invocation.attempt, bind_eq_ok_iff] at hsteps
  obtain ⟨recorded, hrecord, pruned, hprune, hput⟩ := hsteps
  refine ⟨recorded, pruned, _, hrecord, hprune, countEntryInput_eq_ok_iff.mpr ⟨request, hput, rfl⟩,
    CountEntry.ofItem stored, hentry, ?_⟩
  have hwritten : request.item.count = pruned.count := by
    rw [(countEntryPut_eq_ok_iff.mp hput).2]
  rw [← hwritten]
  refine ⟨?_, ?_, request.item.recent, rfl⟩
  · rintro ⟨found, hfind, hrecent⟩
    rcases attempt_some_cases hattempt with hrefresh | hpush
    · exact hrefresh.count
    · exact absurd hrecent (hpush.unknown found hfind)
  · intro hunknown
    rcases attempt_some_cases hattempt with hrefresh | hpush
    · obtain ⟨found, hfind, -, hrecent⟩ := hrefresh.known
      exact absurd ⟨found, hfind, hrecent⟩ hunknown
    · rw [hpush.count]
      exact toNat_add_one hcount

/-- After a get that found nothing the put creates the item. -/
theorem exists_putAfter_none (hrepSeen : Representable inv.visitor.lastSeen) :
    ∃ input, newCountEntryInput ciborium tableName name inv.visitor = .ok input ∧
      PutAfter ciborium tableName name inv none input 1 := by
  have hrequest : newCountEntryPut inv.visitor = .ok ⟨none, ⟨1, ⟨[inv.visitor.stored]⟩⟩⟩ :=
    attempt_none_eq_ok_iff.mpr ⟨hrepSeen, rfl⟩
  exact ⟨_, newCountEntryInput_eq_ok_iff.mpr ⟨_, hrequest, rfl⟩, rfl, rfl⟩

section Run

variable {σ : Type} {client : Dynamo (StateM σ)} {log : List Exchange} {s s' : σ}

/-- A get through the logging client. -/
theorem run_logging_getItem {input : GetItemInput} {reply : Except BoxError GetItemOutput}
    (h : (client.getItem input).run s = (reply, s')) :
    ((logging client).getItem input).run (log, s) = (reply, log ++ [.get input reply], s') := by
  show (((client.getItem input).run s).1, log ++ [.get input ((client.getItem input).run s).1],
    ((client.getItem input).run s).2) = _
  rw [h]

/-- A put through the logging client. -/
theorem run_logging_putItem {input : PutItemInput} {reply : Except PutItemError Unit}
    (h : (client.putItem input).run s = (reply, s')) :
    ((logging client).putItem input).run (log, s) = (reply, log ++ [.put input reply], s') := by
  show (((client.putItem input).run s).1, log ++ [.put input ((client.putItem input).run s).1],
    ((client.putItem input).run s).2) = _
  rw [h]

/-- What `get_count_entry` makes of the reply to its get. -/
def readReply (ciborium : Ciborium) :
    Except BoxError GetItemOutput → Except Failure (Option CountEntry)
  | .error error => .error (.error error)
  | .ok ⟨none⟩ => .ok none
  | .ok ⟨some item⟩ =>
      match CountEntry.ofAttributes ciborium item with
      | .ok entry => .ok (some entry)
      | .error error => .error (.error error)

/-- `get_count_entry` is one get. -/
theorem run_logging_getCountEntry {reply : Except BoxError GetItemOutput}
    (h : (client.getItem (countEntryGet tableName name)).run s = (reply, s')) :
    ((Store.mk (logging client) ciborium tableName).getCountEntry name).run.run (log, s) =
      (readReply ciborium reply, log ++ [.get (countEntryGet tableName name) reply], s') := by
  refine (run_bind_of_ok (run_lift (run_logging_getItem h))).trans ?_
  match reply with
  | .error error => exact run_bind_of_error rfl
  | .ok ⟨none⟩ => exact (run_bind_of_ok rfl).trans rfl
  | .ok ⟨some item⟩ =>
      refine (run_bind_of_ok rfl).trans ?_
      simp only [readReply]
      cases hentry : CountEntry.ofAttributes ciborium item with
      | error error => exact run_bind_of_error rfl
      | ok entry => exact (run_bind_of_ok rfl).trans rfl

/-- The end of both put methods is one put. -/
theorem run_logging_put {input : PutItemInput} {reply : Except PutItemError Unit}
    (h : (client.putItem input).run s = (reply, s')) :
    (do propagate (putReply (← (logging client).putItem input)) :
        ExceptT Failure (StateM (List Exchange × σ)) Bool).run.run (log, s) =
      ((putReply reply).mapError .error, log ++ [.put input reply], s') := by
  refine (run_bind_of_ok (run_lift (run_logging_putItem h))).trans ?_
  cases putReply reply with
  | error error => rfl
  | ok applied => rfl

/-- A program only adds to the log, and what it adds is a conversation. -/
def Converses (ciborium : Ciborium) (tableName name : String) (inv : Invocation) (left : ℕ)
    (loop : ExceptT Failure (StateM (List Exchange × σ)) UInt64) : Prop :=
  ∀ log s, ∃ exchanges result s', loop.run.run (log, s) = (result, log ++ exchanges, s') ∧
    ((∀ exchange ∈ exchanges, Plausible ciborium inv exchange) →
      Conversation ciborium tableName name inv left exchanges result)

/-- A program makes the exchange before it the beginning of a conversation. -/
def Continues (ciborium : Ciborium) (tableName name : String) (inv : Invocation) (left : ℕ)
    (first : Exchange) (program : ExceptT Failure (StateM (List Exchange × σ)) UInt64) : Prop :=
  ∀ log s, ∃ exchanges result s',
    program.run.run (log ++ [first], s) = (result, log ++ exchanges, s') ∧
      ((∀ exchange ∈ exchanges, Plausible ciborium inv exchange) →
        Conversation ciborium tableName name inv left exchanges result)

/-- A step may panic when the reply before it is not plausible. -/
theorem continues_panicking {left : ℕ} {first : Exchange} {α : Type} {x : Except Panic α}
    {f : α → ExceptT Failure (StateM (List Exchange × σ)) UInt64}
    (hok : Plausible ciborium inv first → ∃ a, x = .ok a)
    (hf : ∀ a, x = .ok a → Continues ciborium tableName name inv left first (f a)) :
    Continues ciborium tableName name inv left first (panicking x >>= f) := by
  intro log s
  cases hx : x with
  | error panic =>
      refine ⟨[first], _, s, run_panicking_bind_of_error rfl _, fun htrust => ?_⟩
      obtain ⟨a, ha⟩ := hok (htrust first List.mem_cons_self)
      cases hx.symm.trans ha
  | ok a =>
      obtain ⟨exchanges, result, s', hrun, hrest⟩ := hf a hx log s
      exact ⟨exchanges, result, s', (run_panicking_bind_of_ok rfl _).trans hrun, hrest⟩

/-- A put after a get: the conversation ends there, or goes on with the loop. -/
theorem continues_put {left : ℕ} {loaded : Option Item} {input : PutItemInput} {count : UInt64}
    {loop : ExceptT Failure (StateM (List Exchange × σ)) UInt64}
    (hput : Plausible ciborium inv (.get (countEntryGet tableName name) (.ok ⟨loaded⟩)) →
      PutAfter ciborium tableName name inv loaded input count)
    (hloop : Converses ciborium tableName name inv left loop) :
    Continues ciborium tableName name inv (left + 1)
      (.get (countEntryGet tableName name) (.ok ⟨loaded⟩))
      (do
        if ← (do propagate (putReply (← (logging client).putItem input)) :
            ExceptT Failure (StateM (List Exchange × σ)) Bool)
          then return count
          else loop) := by
  intro log s
  obtain ⟨answer, s', hanswer⟩ : ∃ answer s', (client.putItem input).run s = (answer, s') :=
    ⟨_, _, rfl⟩
  have hwrite := @run_logging_put _ _ (log ++ [.get (countEntryGet tableName name) (.ok ⟨loaded⟩)])
    _ _ _ _ hanswer
  rw [List.append_assoc, List.singleton_append] at hwrite
  match answer with
  | .ok () =>
      refine ⟨_, _, s', (run_bind_of_ok hwrite).trans rfl, fun htrust => ?_⟩
      exact .acknowledged (hput (htrust _ List.mem_cons_self))
  | .error (.other error) =>
      refine ⟨_, _, s', run_bind_of_error hwrite, fun htrust => ?_⟩
      exact .putFailed (hput (htrust _ List.mem_cons_self)) error
  | .error .conditionalCheckFailed =>
      obtain ⟨rest, result, s'', hrun, hrest⟩ := hloop _ s'
      rw [List.append_assoc] at hrun
      refine ⟨_, _, s'', (run_bind_of_ok hwrite).trans hrun, fun htrust => ?_⟩
      refine .conflict (hput (htrust _ List.mem_cons_self)) (hrest ?_)
      exact fun exchange hmem => htrust exchange (List.mem_append_right _ hmem)

/-- The creation of an item that was not found. -/
theorem continues_create (hrepSeen : Representable inv.visitor.lastSeen) {left : ℕ}
    {loop : ExceptT Failure (StateM (List Exchange × σ)) UInt64}
    (hloop : Converses ciborium tableName name inv left loop) :
    Continues ciborium tableName name inv (left + 1)
      (.get (countEntryGet tableName name) (.ok ⟨none⟩))
      (do
        if ← (Store.mk (logging client) ciborium tableName).tryPutNewCountEntry name inv.visitor
          then return 1
          else loop) := by
  obtain ⟨input, hinput, hafter⟩ : ∃ input, _ ∧
    PutAfter ciborium tableName name inv none input 1 := exists_putAfter_none hrepSeen
  rw [Store.tryPutNewCountEntry, bind_assoc]
  refine continues_panicking (fun _ => ⟨input, hinput⟩) fun other hother => ?_
  cases hinput.symm.trans hother
  exact continues_put (fun _ => hafter) hloop

/-- The update of an item that was read. -/
theorem continues_update (hseen : inv.visitor.lastSeen ≤ inv.now)
    (hrepSeen : Representable inv.visitor.lastSeen) (hrepNow : Representable inv.now) {left : ℕ}
    {item : Item} {entry : CountEntry} (hentry : CountEntry.ofAttributes ciborium item = .ok entry)
    {loop : ExceptT Failure (StateM (List Exchange × σ)) UInt64}
    (hloop : Converses ciborium tableName name inv left loop) :
    Continues ciborium tableName name inv (left + 1)
      (.get (countEntryGet tableName name) (.ok ⟨some item⟩))
      (do
        let recorded ← panicking (recordVisit entry inv.visitor inv.now)
        let pruned ← panicking (pruneVisitors recorded inv.now maxRecentVisitors)
        if ← (Store.mk (logging client) ciborium tableName).tryPutCountEntry name entry.count pruned
          then return pruned.count
          else loop) := by
  have hsteps : Plausible ciborium inv (.get (countEntryGet tableName name) (.ok ⟨some item⟩)) →
      ∃ recorded pruned input, recordVisit entry inv.visitor inv.now = .ok recorded ∧
        pruneVisitors recorded inv.now maxRecentVisitors = .ok pruned ∧
        countEntryInput ciborium tableName name entry.count pruned = .ok input ∧
        PutAfter ciborium tableName name inv (some item) input pruned.count := fun htrust =>
    exists_putAfter_some hseen hrepSeen hrepNow hentry (htrust entry hentry).1
      (htrust entry hentry).2
  refine continues_panicking (fun htrust => ?_) fun recorded hrecord =>
    continues_panicking (fun htrust => ?_) fun pruned hprune => ?_
  · obtain ⟨recorded, _, _, hrecord, -⟩ := hsteps htrust
    exact ⟨recorded, hrecord⟩
  · obtain ⟨_, pruned, _, hrecord', hprune, -⟩ := hsteps htrust
    cases hrecord.symm.trans hrecord'
    exact ⟨pruned, hprune⟩
  · rw [Store.tryPutCountEntry, bind_assoc]
    refine continues_panicking (fun htrust => ?_) fun input hinput =>
      continues_put (fun htrust => ?_) hloop
    all_goals
      obtain ⟨_, _, input, hrecord', hprune', hinput', hafter⟩ := hsteps htrust
      cases hrecord.symm.trans hrecord'
      cases hprune.symm.trans hprune'
    · exact ⟨input, hinput'⟩
    · cases hinput.symm.trans hinput'
      exact hafter

/-- **The retry loop holds a conversation.** -/
theorem converses_attempts (hseen : inv.visitor.lastSeen ≤ inv.now)
    (hrepSeen : Representable inv.visitor.lastSeen) (hrepNow : Representable inv.now) (left : ℕ) :
    Converses ciborium tableName name inv left
      ((Store.mk (logging client) ciborium tableName).attempts inv.visitor name inv.now left) := by
  induction left with
  | zero => exact fun log s => ⟨[], _, s, by rw [List.append_nil]; rfl, fun _ => .exhausted⟩
  | succ left ih =>
      intro log s
      obtain ⟨reply, s₁, hget⟩ : ∃ reply s₁,
        (client.getItem (countEntryGet tableName name)).run s = (reply, s₁) := ⟨_, _, rfl⟩
      have hread : ((Store.mk (logging client) ciborium tableName).getCountEntry name).run.run
          (log, s) = _ := run_logging_getCountEntry hget
      match reply with
      | .error error => exact ⟨_, _, s₁, run_bind_of_error hread, fun _ => .getFailed error⟩
      | .ok ⟨none⟩ =>
          obtain ⟨exchanges, result, s₂, hrun, hrest⟩ := continues_create hrepSeen ih log s₁
          exact ⟨exchanges, result, s₂, (run_bind_of_ok hread).trans hrun, hrest⟩
      | .ok ⟨some item⟩ =>
          simp only [readReply] at hread
          cases hentry : CountEntry.ofAttributes ciborium item with
          | error error =>
              rw [hentry] at hread
              exact ⟨_, _, s₁, run_bind_of_error hread, fun _ => .damaged hentry⟩
          | ok entry =>
              rw [hentry] at hread
              obtain ⟨exchanges, result, s₂, hrun, hrest⟩ :=
                continues_update hseen hrepSeen hrepNow hentry ih log s₁
              exact ⟨exchanges, result, s₂, (run_bind_of_ok hread).trans hrun, hrest⟩

end Run

/-! ### What every conversation has in common -/

/-- Gets and puts take turns, a get first. -/
def Alternating : List Exchange → Prop
  | [] => True
  | [.get _ _] => True
  | .get _ _ :: .put _ _ :: rest => Alternating rest
  | _ => False

/-- The last put of a log, with the answer to it. -/
def LastPut (log : List Exchange) (input : PutItemInput) (answer : Except PutItemError Unit) :
    Prop :=
  ∃ before after, log = before ++ .put input answer :: after ∧
    ∀ exchange ∈ after, exchange.isGet = true

/-- How a call with a number of attempts fails: it passes on the error of a get or
of a put, or that of an item it cannot read, or its last attempt met a conflict. -/
inductive Fails (ciborium : Ciborium) (attempts : ℕ) (log : List Exchange) : BoxError → Prop
  | get {input : GetItemInput} {error : BoxError}
      (hlast : log.getLast? = some (.get input (.error error))) : Fails ciborium attempts log error
  | item {input : GetItemInput} {item : Item} {error : BoxError}
      (hlast : log.getLast? = some (.get input (.ok ⟨some item⟩)))
      (hitem : CountEntry.ofAttributes ciborium item = .error error) :
      Fails ciborium attempts log error
  | put {input : PutItemInput} {error : BoxError}
      (hlast : log.getLast? = some (.put input (.error (.other error)))) :
      Fails ciborium attempts log error
  | attempts (hlast : ∀ exchange ∈ log.getLast?, ∃ input,
        exchange = .put input (.error .conditionalCheckFailed))
      (hattempts : log.countP Exchange.isGet = attempts) :
      Fails ciborium attempts log maxAttemptsExceeded

/-- What every conversation of a call has in common. -/
structure Orderly (ciborium : Ciborium) (tableName name : String) (inv : Invocation)
    (log : List Exchange) (result : Except Failure UInt64) : Prop where
  alternating : Alternating log
  gets_le : log.countP Exchange.isGet ≤ maxAttemptsForOptimisticLocking
  puts_le : log.countP (fun exchange => !exchange.isGet) ≤ maxAttemptsForOptimisticLocking
  /-- Every get is for the item of the counter. -/
  get_eq : ∀ input reply, .get input reply ∈ log → input = countEntryGet tableName name
  /-- A put follows only a get that found nothing or an item that can be read, and
  is as that get requires. -/
  put_after : ∀ input reply put answer, [.get input reply, .put put answer] <:+: log →
    ∃ loaded count, reply = .ok ⟨loaded⟩ ∧ PutAfter ciborium tableName name inv loaded put count
  /-- Only after a failed condition the call goes on. -/
  retried : ∀ put answer next, [.put put answer, next] <:+: log →
    answer = .error .conditionalCheckFailed
  /-- The call returns the count that its last put wrote, if that was acknowledged. -/
  ok_iff : ∀ n, result = .ok n ↔ ∃ put item, LastPut log put (.ok ()) ∧
    put.item = StoredItem.attributes ciborium name item ∧ item.count = n
  /-- The call does not panic, and fails only for a reason. -/
  fails : ∀ failure, result = .error failure → ∃ error, failure = .error error ∧
    Fails ciborium maxAttemptsForOptimisticLocking log error

/-- The put after a get writes its count. -/
theorem PutAfter.exists_item {loaded : Option Item} {input : PutItemInput} {count : UInt64}
    (h : PutAfter ciborium tableName name inv loaded input count) :
    ∃ visitors, input.item = StoredItem.attributes ciborium name ⟨count, ⟨visitors⟩⟩ := by
  cases loaded with
  | none =>
      obtain ⟨rfl, rfl⟩ := h
      exact ⟨_, rfl⟩
  | some item =>
      obtain ⟨entry, -, -, -, visitors, rfl⟩ := h
      exact ⟨visitors, rfl⟩

/-- A get with the put after it is the first round of a log or is in the rest. -/
theorem round_infix {input input' : GetItemInput} {reply reply' : Except BoxError GetItemOutput}
    {put put' : PutItemInput} {answer answer' : Except PutItemError Unit} {rest : List Exchange}
    (h : [.get input reply, .put put answer] <:+:
      Exchange.get input' reply' :: Exchange.put put' answer' :: rest) :
    reply = reply' ∧ put = put' ∨
      [Exchange.get input reply, Exchange.put put answer] <:+: rest := by
  rcases List.infix_cons_iff.mp h with hfirst | hrest
  · simp only [List.cons_prefix_cons, Exchange.get.injEq, Exchange.put.injEq] at hfirst
    exact Or.inl ⟨hfirst.1.2, hfirst.2.1.1⟩
  · rcases List.infix_cons_iff.mp hrest with hfirst | hrest
    · simp [List.cons_prefix_cons] at hfirst
    · exact Or.inr hrest

/-- A failure after a conflict is the failure of the attempts that are left. -/
theorem Fails.conflict {attempts : ℕ} {rest : List Exchange} {error : BoxError}
    (h : Fails ciborium attempts rest error) (input : GetItemInput)
    (reply : Except BoxError GetItemOutput) (put : PutItemInput) :
    Fails ciborium (attempts + 1)
      (.get input reply :: .put put (.error .conditionalCheckFailed) :: rest) error := by
  have hsame : ∀ {last}, rest.getLast? = some last → (Exchange.get input reply ::
      .put put (.error .conditionalCheckFailed) :: rest).getLast? = some last := by
    intro last hlast
    simp [List.getLast?_cons, hlast]
  cases h with
  | get hlast => exact .get (hsame hlast)
  | item hlast hitem => exact .item (hsame hlast) hitem
  | put hlast => exact .put (hsame hlast)
  | attempts hlast hattempts =>
      refine .attempts (fun exchange hmem => ?_) (by simp [List.countP_cons, hattempts])
      cases hrest : rest.getLast? with
      | none => exact ⟨put, by simpa [List.getLast?_cons, hrest, eq_comm] using hmem⟩
      | some last =>
          obtain rfl : last = exchange := by simpa [List.getLast?_cons, hrest] using hmem
          exact hlast last hrest

namespace Conversation

variable {left : ℕ} {log : List Exchange} {result : Except Failure UInt64}

theorem alternating (h : Conversation ciborium tableName name inv left log result) :
    Alternating log := by
  induction h with
  | conflict hput _ ih => exact ih
  | _ => trivial

theorem countP_get_le (h : Conversation ciborium tableName name inv left log result) :
    log.countP Exchange.isGet ≤ left := by
  induction h with
  | conflict hput _ ih => simpa [List.countP_cons] using ih
  | _ => simp [List.countP_cons]

theorem countP_put_le (h : Conversation ciborium tableName name inv left log result) :
    log.countP (fun exchange => !exchange.isGet) ≤ left := by
  induction h with
  | conflict hput _ ih => simpa [List.countP_cons] using ih
  | _ => simp

theorem get_eq (h : Conversation ciborium tableName name inv left log result) {input : GetItemInput}
    {reply : Except BoxError GetItemOutput} (hmem : .get input reply ∈ log) :
    input = countEntryGet tableName name := by
  induction h with
  | exhausted => cases hmem
  | conflict hput _ ih =>
      rcases List.mem_cons.mp hmem with heq | hmem
      · exact (Exchange.get.inj heq).1
      · exact ih (by simpa using hmem)
  | _ => simp_all

theorem put_after (h : Conversation ciborium tableName name inv left log result)
    {input : GetItemInput} {reply : Except BoxError GetItemOutput} {put : PutItemInput}
    {answer : Except PutItemError Unit} (hpart : [.get input reply, .put put answer] <:+: log) :
    ∃ loaded count, reply = .ok ⟨loaded⟩ ∧
      PutAfter ciborium tableName name inv loaded put count := by
  induction h with
  | exhausted => simp at hpart
  | getFailed error => simp [List.infix_cons_iff] at hpart
  | damaged hitem => simp [List.infix_cons_iff] at hpart
  | acknowledged hput =>
      rcases round_infix hpart with ⟨rfl, rfl⟩ | hrest
      · exact ⟨_, _, rfl, hput⟩
      · simp at hrest
  | putFailed hput error =>
      rcases round_infix hpart with ⟨rfl, rfl⟩ | hrest
      · exact ⟨_, _, rfl, hput⟩
      · simp at hrest
  | conflict hput _ ih =>
      rcases round_infix hpart with ⟨rfl, rfl⟩ | hrest
      · exact ⟨_, _, rfl, hput⟩
      · exact ih hrest

theorem retried (h : Conversation ciborium tableName name inv left log result)
    {put : PutItemInput} {answer : Except PutItemError Unit} {next : Exchange}
    (hpart : [.put put answer, next] <:+: log) : answer = .error .conditionalCheckFailed := by
  induction h with
  | conflict hput _ ih =>
      rcases List.infix_cons_iff.mp hpart with hfirst | hrest
      · simp [List.cons_prefix_cons] at hfirst
      · rcases List.infix_cons_iff.mp hrest with hfirst | hrest
        · simp only [List.cons_prefix_cons, Exchange.put.injEq] at hfirst
          exact hfirst.1.2
        · exact ih hrest
  | _ => simp [List.infix_cons_iff, List.cons_prefix_cons] at hpart

/-- A call that returns has ended with an acknowledged put. -/
theorem exists_last_put {n : UInt64}
    (h : Conversation ciborium tableName name inv left log (.ok n)) :
    ∃ before put visitors, log = before ++ [.put put (.ok ())] ∧
      put.item = StoredItem.attributes ciborium name ⟨n, ⟨visitors⟩⟩ := by
  generalize hresult : (Except.ok n : Except Failure UInt64) = result at h
  induction h with
  | exhausted => cases hresult
  | getFailed error => cases hresult
  | damaged hitem => cases hresult
  | acknowledged hput =>
      obtain rfl := Except.ok.inj hresult
      obtain ⟨visitors, hitem⟩ := hput.exists_item
      exact ⟨[_], _, visitors, rfl, hitem⟩
  | putFailed hput error => cases hresult
  | conflict hput _ ih =>
      obtain ⟨before, put, visitors, rfl, hitem⟩ := ih hresult
      exact ⟨_ :: _ :: before, put, visitors, rfl, hitem⟩

/-- A call that fails does so for a reason. -/
theorem fails {failure : Failure}
    (h : Conversation ciborium tableName name inv left log (.error failure)) :
    ∃ error, failure = .error error ∧ Fails ciborium left log error := by
  generalize hresult : (Except.error failure : Except Failure UInt64) = result at h
  induction h with
  | exhausted =>
      obtain rfl := Except.error.inj hresult
      exact ⟨_, rfl, .attempts (by simp) rfl⟩
  | getFailed error =>
      obtain rfl := Except.error.inj hresult
      exact ⟨error, rfl, .get rfl⟩
  | damaged hitem =>
      obtain rfl := Except.error.inj hresult
      exact ⟨_, rfl, .item rfl hitem⟩
  | acknowledged hput => cases hresult
  | putFailed hput error =>
      obtain rfl := Except.error.inj hresult
      exact ⟨error, rfl, .put rfl⟩
  | @conflict left loaded input count rest result hput _ ih =>
      obtain ⟨error, rfl, hfails⟩ := ih hresult
      exact ⟨error, rfl, hfails.conflict _ _ _⟩

/-- A log with an acknowledged put has no put after it, nor anything else. -/
theorem eq_append_of_lastPut (h : Conversation ciborium tableName name inv left log result)
    {put : PutItemInput} (hlast : LastPut log put (.ok ())) :
    ∃ before, log = before ++ [.put put (.ok ())] := by
  obtain ⟨before, after, rfl, -⟩ := hlast
  cases after with
  | nil => exact ⟨before, rfl⟩
  | cons next after =>
      have hpart : [.put put (.ok ()), next] <:+: before ++ .put put (.ok ()) :: next :: after :=
        ⟨before, after, by simp⟩
      cases h.retried hpart

/-- **The result is the count of the last put, if that was acknowledged.** -/
theorem ok_iff (h : Conversation ciborium tableName name inv left log result) (n : UInt64) :
    result = .ok n ↔ ∃ put item, LastPut log put (.ok ()) ∧
      put.item = StoredItem.attributes ciborium name item ∧ item.count = n := by
  constructor
  · rintro rfl
    obtain ⟨before, put, visitors, rfl, hitem⟩ := h.exists_last_put
    exact ⟨put, ⟨n, ⟨visitors⟩⟩, ⟨before, [], rfl, by simp⟩, hitem, rfl⟩
  · rintro ⟨put, item, hlast, hitem, rfl⟩
    obtain ⟨before, rfl⟩ := h.eq_append_of_lastPut hlast
    cases result with
    | ok n =>
        obtain ⟨before', put', visitors, hlog, hitem'⟩ := h.exists_last_put
        obtain ⟨-, hput⟩ := List.append_inj' hlog rfl
        obtain rfl : put = put' := by simpa using hput
        have hcount := congrArg countAttribute (hitem.symm.trans hitem')
        rw [countAttribute_attributes, countAttribute_attributes] at hcount
        rw [Except.ok.inj hcount]
    | error failure =>
        obtain ⟨error, -, hfails⟩ := h.fails
        cases hfails <;> simp_all

/-- **Every conversation of a call is orderly.** -/
theorem orderly (h : Conversation ciborium tableName name inv maxAttemptsForOptimisticLocking log
    result) : Orderly ciborium tableName name inv log result where
  alternating := h.alternating
  gets_le := h.countP_get_le
  puts_le := h.countP_put_le
  get_eq _ _ := h.get_eq
  put_after _ _ _ _ := h.put_after
  retried _ _ _ := h.retried
  ok_iff := h.ok_iff
  fails failure hresult := by
    subst hresult
    exact h.fails

end Conversation

/-- **One call against any client.**  Whatever the client serves and answers, as
long as no item it serves can be read with a time after `now` or with the last
count, the call is orderly. -/
theorem call_orderly {σ : Type} (client : Dynamo (StateM σ)) (ciborium : Ciborium)
    (tableName name : String) {inv : Invocation} (hseen : inv.visitor.lastSeen ≤ inv.now)
    (hrepSeen : Representable inv.visitor.lastSeen) (hrepNow : Representable inv.now) (s : σ)
    (htrust : ∀ exchange ∈ (converse client ciborium tableName name inv s).1,
      Plausible ciborium inv exchange) :
    Orderly ciborium tableName name inv (converse client ciborium tableName name inv s).1
      (converse client ciborium tableName name inv s).2 := by
  obtain ⟨exchanges, result, s', hrun, hconversation⟩ : ∃ exchanges result s',
      ((Store.mk (logging client) ciborium tableName).maybeIncrementVisitors inv.visitor name
        inv.now).run.run ([], s) = (result, [] ++ exchanges, s') ∧ _ :=
    converses_attempts hseen hrepSeen hrepNow maxAttemptsForOptimisticLocking [] s
  rw [List.nil_append] at hrun
  have hout : converse client ciborium tableName name inv s = (exchanges, result) := by
    rw [converse, hrun]
  rw [hout] at htrust ⊢
  exact (hconversation htrust).orderly

/-- The item of another visitor. -/
def overtaken.item : Item :=
  StoredItem.attributes Ciborium.reference "default" ⟨1, ⟨[⟨8, 100⟩]⟩⟩

/-- A client that serves no item, then one of another visitor; its first put fails
the condition and the second is acknowledged.  The state is the number of puts. -/
def overtaken : Dynamo (StateM ℕ) where
  getItem _ := fun puts =>
    (.ok ⟨if puts = 0 then none else some overtaken.item⟩, puts)
  putItem _ := fun puts => (if puts = 0 then .error .conditionalCheckFailed else .ok (), puts + 1)

/-- The visitor who was overtaken is the second one. -/
theorem call_orderly_overtaken : ∃ put item,
    LastPut (converse overtaken Ciborium.reference "table" "default"
      ⟨⟨7, 1_690_000_100_000_000_000⟩, 1_690_000_100_000_000_000⟩ 0).1 put (.ok ()) ∧
    put.item = StoredItem.attributes Ciborium.reference "default" item ∧ item.count = 2 := by
  obtain ⟨get, put, get', put', hlog⟩ : ∃ get put get' put',
      (converse overtaken Ciborium.reference "table" "default"
        ⟨⟨7, 1_690_000_100_000_000_000⟩, 1_690_000_100_000_000_000⟩ 0).1 =
          [.get get (.ok ⟨none⟩), .put put (.error .conditionalCheckFailed),
            .get get' (.ok ⟨some overtaken.item⟩), .put put' (.ok ())] := ⟨_, _, _, _, rfl⟩
  refine ((call_orderly overtaken Ciborium.reference "table" "default" (by decide) (by decide)
    (by decide) 0 ?_).ok_iff 2).mp rfl
  rw [hlog]
  intro exchange hmem
  simp only [List.mem_cons, List.not_mem_nil, or_false] at hmem
  rcases hmem with rfl | rfl | rfl | rfl
  · trivial
  · trivial
  · intro entry hentry
    rw [overtaken.item, ofAttributes_attributes Ciborium.reference "default" (by decide)] at hentry
    obtain rfl := Except.ok.inj hentry
    exact ⟨by decide, by decide⟩
  · trivial

end VisitorCounter

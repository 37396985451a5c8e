import VisitorCounter.Response
import VisitorCounter.Service

/-!
# Who calls the table, and how often

A handler reads or writes the table only after its request was admitted, for the
counter that the request names, and only if that counter is allowed.  It reads the
clock at most twice and makes at most one get and one put for each attempt.  Both
are facts about the program of a handler, whatever it hears, and so they hold in
every run of the service.

## Main Definitions

* `CallKind`, `callBudget`: how many calls of a kind a handler has
* `Keyed`: whatever is under way is for an admitted request and its counter
* `Budgeted`: what is left of the handlers against the replies they had

## Main Results

* `only_program`, `budget_program`: the calls of a handler
* `Keyed.run`, `Budgeted.run`: the same in every run
* `table_calls_admitted`: who calls the table, and how often
-/

namespace VisitorCounter

open Runs Programs

/-- The kinds of calls. -/
inductive CallKind where
  | now
  | get
  | put
deriving DecidableEq, Repr

def Call.kind : Call → CallKind
  | .now => .now
  | .getItem _ => .get
  | .putItem _ => .put

/-- The call is of a kind. -/
def Call.isKind (kind : CallKind) (c : Call) : Bool := c.kind == kind

/-- The event is the reply to a call of a kind by a handler. -/
def ServiceEvent.answers {ι : Type} [DecidableEq ι] (i : ι) (kind : CallKind) :
    ServiceEvent ι → Bool
  | .readClock j => j = i ∧ kind = .now
  | .get j _ => j = i ∧ kind = .get
  | .reply j _ => j = i ∧ kind = .put
  | _ => false

/-! ### The calls of a handler -/

@[simp] theorem keyOf_attributes (ciborium : Ciborium) (name : String) (item : StoredItem) :
    keyOf (item.attributes ciborium name) = some name := rfl

theorem exists_of_map_eq_ok {ε α β : Type} {x : Except ε α} {f : α → β} {b : β}
    (h : x.map f = .ok b) : ∃ a, b = f a := by
  cases x with
  | error e => cases h
  | ok a => exact ⟨a, (Except.ok.inj h).symm⟩

section Programs

variable (ciborium : Ciborium) (tableName name : String) (inv : Invocation)

/-- Whatever was loaded, a put of an attempt is one of the two that the store makes. -/
theorem exists_request_of_preparePut {loaded : Option CountEntry} {input : PutItemInput}
    {count : UInt64} (h : preparePut ciborium tableName name inv loaded = .ok (input, count)) :
    ∃ request, input = PutRequest.input ciborium tableName name request := by
  cases loaded with
  | none =>
      simp only [preparePut, newCountEntryInput_eq, bind_eq_ok_iff, pure, Except.pure,
        Except.ok.injEq, Prod.mk.injEq] at h
      obtain ⟨_, hinput, rfl, -⟩ := h
      exact exists_of_map_eq_ok hinput
  | some countEntry =>
      simp only [preparePut, countEntryInput_eq, bind_eq_ok_iff, pure, Except.pure,
        Except.ok.injEq, Prod.mk.injEq] at h
      obtain ⟨recorded, -, pruned, -, _, hinput, rfl, -⟩ := h
      exact exists_of_map_eq_ok hinput

/-- The retry loop calls the table for its counter only. -/
theorem only_attemptsProgram (left : ℕ) :
    (attemptsProgram ciborium tableName name inv left).Only (Call.For ciborium tableName name) := by
  induction left with
  | zero => trivial
  | succ left ih =>
      rw [attemptsProgram_succ]
      refine ⟨rfl, fun reply => ?_⟩
      dsimp only
      cases readReply ciborium reply with
      | error failure => trivial
      | ok loaded =>
          simp only [updateProgram_eq]
          match hput : preparePut ciborium tableName name inv loaded with
          | .error panic => trivial
          | .ok (input, count) =>
              dsimp only
              rw [putProgram_eq]
              have hrequest := exists_request_of_preparePut ciborium tableName name inv hput
              refine ⟨hrequest, fun answer => ?_⟩
              dsimp only
              match putReply answer with
              | .error error => trivial
              | .ok true => trivial
              | .ok false => exact ih

/-- The calls of the loop body from the loaded entry on. -/
theorem budget_updateProgram {kind : CallKind} {left m n : ℕ}
    (h : (attemptsProgram ciborium tableName name inv left).Budget (Call.isKind kind) m)
    (hput : m + (if CallKind.put == kind then 1 else 0) ≤ n) (loaded : Option CountEntry) :
    (updateProgram ciborium tableName name inv left loaded).Budget (Call.isKind kind) n := by
  rw [updateProgram_eq]
  match preparePut ciborium tableName name inv loaded with
  | .error panic => trivial
  | .ok (input, count) =>
      dsimp only
      rw [putProgram_eq]
      refine ⟨m, hput, fun answer => ?_⟩
      dsimp only
      match putReply answer with
      | .error error => trivial
      | .ok true => trivial
      | .ok false => exact h

/-- The retry loop makes one get and one put for each attempt, and does not read the clock. -/
theorem budget_attemptsProgram (kind : CallKind) (left : ℕ) :
    (attemptsProgram ciborium tableName name inv left).Budget (Call.isKind kind)
      (if kind = .now then 0 else left) := by
  induction left with
  | zero => trivial
  | succ left ih =>
      rw [attemptsProgram_succ]
      -- What is left after the get pays for the put and for the later attempts.
      refine ⟨(if kind = .now then 0 else left) + if CallKind.put == kind then 1 else 0, ?_,
        fun reply => ?_⟩
      · cases kind <;> simp [Call.isKind, Call.kind]
      · dsimp only
        cases readReply ciborium reply with
        | error failure => trivial
        | ok loaded => exact budget_updateProgram ciborium tableName name inv ih le_rfl loaded

end Programs

variable {ι : Type} {d : Deployment ι}

/-- **A handler calls the table only if its request is admitted**, and for its counter only. -/
theorem only_program (d : Deployment ι) (i : ι) : (d.program i).Only (d.Admits i) := by
  rw [Deployment.program, handlerProgram_eq]
  cases hadmission : admission d.crates (d.requests i) with
  | error result => trivial
  | ok info =>
      refine ⟨Or.inl rfl, fun seen => ?_⟩
      dsimp only
      rw [visitProgram_eq]
      split
      · rename_i hallowed
        have hvisits : d.Visits i (d.counter i) := by
          refine ⟨⟨info, hadmission⟩, rfl, ?_⟩
          simpa using hallowed
        refine ⟨Or.inl rfl, fun now => ?_⟩
        dsimp only
        exact ((only_attemptsProgram _ _ _ _ _).mono fun c hc => Or.inr ⟨hvisits, hc⟩).bind
          fun result => trivial
      · trivial

/-- A handler reads the clock twice at most, and gets and puts once for each attempt. -/
def callBudget (kind : CallKind) : ℕ :=
  if kind = .now then 2 else maxAttemptsForOptimisticLocking

theorem budget_program (d : Deployment ι) (i : ι) (kind : CallKind) :
    (d.program i).Budget (Call.isKind kind) (callBudget kind) := by
  have hclock : (if kind = .now then 0 else maxAttemptsForOptimisticLocking) +
      (if CallKind.now == kind then 1 else 0) + (if CallKind.now == kind then 1 else 0) ≤
        callBudget kind := by
    cases kind <;> simp [callBudget]
  rw [Deployment.program, handlerProgram_eq]
  cases admission d.crates (d.requests i) with
  | error result => trivial
  | ok info =>
      refine ⟨_, hclock, fun seen => ?_⟩
      dsimp only
      rw [visitProgram_eq]
      split
      · refine ⟨_, le_rfl, fun now => ?_⟩
        dsimp only
        exact Program.Budget.bind (m := 0) (budget_attemptsProgram _ _ _ _ kind _) fun _ => trivial
      · trivial

/-! ### Who calls the table -/

/-- Everything that a state has to do with the table is for a counter of its handler. -/
structure Keyed (d : Deployment ι) (s : Service ι) : Prop where
  handler : ∀ i, (s.handler i).Only (d.Admits i)
  sent : ∀ put ∈ s.sent, d.Admits put.author (.putItem put.input)
  log : ∀ put ∈ s.log, d.Admits put.author (.putItem put.input)

theorem Keyed.start (d : Deployment ι) (clock : ℤ) : Keyed d (d.start clock) where
  handler := only_program d
  sent _ hput := nomatch hput
  log _ hput := nomatch hput

/-- A put of a handler that arrives is for its counter. -/
theorem Keyed.deliver {s : Service ι} (h : Keyed d s) {put : SentPut ι}
    (hput : d.Admits put.author (.putItem put.input)) (applied : Bool) :
    Keyed d (s.deliver put applied) where
  handler := h.handler
  sent := h.sent
  log other hother := by
    cases applied with
    | false => exact h.log other hother
    | true =>
        rcases List.mem_cons.mp hother with rfl | hold
        · exact hput
        · exact h.log other hold

/-- What a handler calls is for its counter. -/
theorem Keyed.call {s : Service ι} (h : Keyed d s) {i : ι} {c : Call}
    {next : c.Reply → HandlerProgram} (hcall : s.handler i = .call c next) : d.Admits i c := by
  have honly := h.handler i
  rw [hcall] at honly
  exact honly.1

/-- So is what it calls later. -/
theorem Keyed.next {s : Service ι} (h : Keyed d s) {i : ι} {c : Call}
    {next : c.Reply → HandlerProgram} (hcall : s.handler i = .call c next) (reply : c.Reply) :
    (next reply).Only (d.Admits i) := by
  have honly := h.handler i
  rw [hcall] at honly
  exact honly.2 reply

variable [DecidableEq ι]

/-- A handler that goes on stays with its counter. -/
theorem Keyed.goto {s : Service ι} (h : Keyed d s) {i : ι} {next : HandlerProgram}
    (hnext : next.Only (d.Admits i)) : Keyed d (s.goto i next) where
  handler j := by
    by_cases hj : j = i
    · subst hj
      simpa [Service.goto] using hnext
    · simpa [Service.goto, Function.update_of_ne hj] using h.handler j
  sent put hput := by
    rcases List.mem_append.mp hput with hnew | hold
    · cases next with
      | done result => cases hnew
      | call c next =>
          cases c with
          | now => cases hnew
          | getItem input => cases hnew
          | putItem input =>
              obtain rfl := List.mem_singleton.mp hnew
              exact hnext.1
    · exact h.sent put hold
  log := h.log

/-- Every step keeps the service with its counters. -/
theorem Keyed.step {s s' : Service ι} {e : ServiceEvent ι} (h : Keyed d s)
    (hstep : ServiceStep d s e s') : Keyed d s' := by
  cases hstep with
  | tick => exact ⟨h.handler, h.sent, h.log⟩
  | readClock hcall =>
      have hgoto := h.goto (h.next hcall s.clock)
      exact ⟨hgoto.handler, hgoto.sent, hgoto.log⟩
  | get hcall hserves => exact h.goto (h.next hcall _)
  | @put i input next applied hcall happlied =>
      have hdeliver := @Keyed.deliver _ _ _ h ⟨i, input⟩ (h.call hcall) applied
      exact ⟨hdeliver.handler, hdeliver.sent, hdeliver.log⟩
  | putAgain hsent happlied => exact h.deliver (h.sent _ hsent) _
  | reply hcall hreply => exact h.goto (h.next hcall _)
  | failGet hcall => exact h.goto (h.next hcall _)
  | failPut hcall => exact h.goto (h.next hcall _)

/-- **Every state of a run stays with its counters.** -/
theorem Keyed.run {clock : ℤ} {trace : List (ServiceEvent ι)} {s : Service ι}
    (run : Run (ServiceStep d) (d.start clock) trace s) : Keyed d s :=
  run.invariant (Keyed.start d clock) fun _ _ _ h hstep => h.step hstep

/-! ### How often -/

/-- **What a step does to a handler**: nothing, or it goes on with a reply to its call. -/
theorem ServiceStep.handler_cases {s s' : Service ι} {e : ServiceEvent ι}
    (hstep : ServiceStep d s e s') (i : ι) :
    (s'.handler i = s.handler i ∧ ∀ kind, e.answers i kind = false) ∨
      ∃ c next reply, s.handler i = .call c next ∧ s'.handler i = next reply ∧
        e.id = some i ∧ ∀ kind, e.answers i kind = true → c.isKind kind = true := by
  have hother : ∀ {j : ι} (next : HandlerProgram), i ≠ j →
      (s.goto j next).handler i = s.handler i := fun next hne => Function.update_of_ne hne _ _
  have hself : ∀ next : HandlerProgram, (s.goto i next).handler i = next :=
    fun next => Function.update_self _ _ _
  cases hstep with
  | tick => exact Or.inl ⟨rfl, fun _ => rfl⟩
  | @readClock j next hcall =>
      by_cases hij : i = j
      · subst hij
        refine Or.inr ⟨.now, next, s.clock, hcall, hself (next s.clock), rfl, fun kind hkind => ?_⟩
        obtain rfl : kind = .now := by simpa [ServiceEvent.answers] using hkind
        rfl
      · exact Or.inl ⟨hother _ hij, fun kind => by simp [ServiceEvent.answers, Ne.symm hij]⟩
  | @get j input next found hcall =>
      by_cases hij : i = j
      · subst hij
        refine Or.inr ⟨.getItem input, next, .ok ⟨found⟩, hcall, hself _, rfl, fun kind hkind => ?_⟩
        obtain rfl : kind = .get := by simpa [ServiceEvent.answers] using hkind
        rfl
      · exact Or.inl ⟨hother _ hij, fun kind => by simp [ServiceEvent.answers, Ne.symm hij]⟩
  | put => exact Or.inl ⟨rfl, fun _ => rfl⟩
  | putAgain => exact Or.inl ⟨rfl, fun _ => rfl⟩
  | @reply j input next applied hcall =>
      by_cases hij : i = j
      · subst hij
        refine Or.inr ⟨.putItem input, next, _, hcall, hself _, rfl, fun kind hkind => ?_⟩
        obtain rfl : kind = .put := by simpa [ServiceEvent.answers] using hkind
        rfl
      · exact Or.inl ⟨hother _ hij, fun kind => by simp [ServiceEvent.answers, Ne.symm hij]⟩
  | @failGet j input next error hcall =>
      by_cases hij : i = j
      · subst hij
        exact Or.inr ⟨.getItem input, next, .error error, hcall, hself _, rfl,
          fun _ hkind => nomatch hkind⟩
      · exact Or.inl ⟨hother _ hij, fun _ => rfl⟩
  | @failPut j input next error hcall =>
      by_cases hij : i = j
      · subst hij
        exact Or.inr ⟨.putItem input, next, .error (.other error), hcall, hself _, rfl,
          fun _ hkind => nomatch hkind⟩
      · exact Or.inl ⟨hother _ hij, fun _ => rfl⟩

/-- What is left of the handlers fits into what their replies have left of the budgets. -/
def Budgeted (trace : List (ServiceEvent ι)) (s : Service ι) : Prop :=
  ∀ i kind, ∃ left, (s.handler i).Budget (Call.isKind kind) left ∧
    left + trace.countP (ServiceEvent.answers i kind) ≤ callBudget kind

/-- A reply is paid for by the call that it answers. -/
theorem Budgeted.step {trace : List (ServiceEvent ι)} {s s' : Service ι} {e : ServiceEvent ι}
    (h : Budgeted trace s) (hstep : ServiceStep d s e s') : Budgeted (e :: trace) s' := by
  intro i kind
  obtain ⟨left, hbudget, hleft⟩ := h i kind
  rw [List.countP_cons]
  rcases hstep.handler_cases i with ⟨hsame, hanswers⟩ | ⟨c, next, reply, hcall, hnext, -, hanswers⟩
  · rw [hsame, hanswers kind]
    exact ⟨left, hbudget, by simpa using hleft⟩
  · rw [hcall] at hbudget
    obtain ⟨rest, hrest, hbudget⟩ := hbudget
    refine ⟨rest, hnext ▸ hbudget reply, ?_⟩
    have hpaid : (if e.answers i kind = true then 1 else 0) ≤
        if c.isKind kind = true then 1 else 0 := by
      split
      · rename_i he
        rw [if_pos (hanswers kind he)]
      · exact Nat.zero_le _
    omega

theorem Budgeted.run {clock : ℤ} {trace : List (ServiceEvent ι)} {s : Service ι}
    (run : Run (ServiceStep d) (d.start clock) trace s) : Budgeted trace s :=
  run.invariant_trace (P := Budgeted) (fun i kind => ⟨_, budget_program d i kind, le_rfl⟩)
    fun _ _ _ _ _ h hstep => h.step hstep

/-- A handler gets no more replies than its budget has calls. -/
theorem countP_answers_le {clock : ℤ} {trace : List (ServiceEvent ι)} {s : Service ι}
    (run : Run (ServiceStep d) (d.start clock) trace s) (i : ι) (kind : CallKind) :
    trace.countP (ServiceEvent.answers i kind) ≤ callBudget kind := by
  obtain ⟨left, -, hleft⟩ := Budgeted.run run i kind
  omega

/-- What a handler has read from the clock is counted by its readings. -/
theorem length_reads {clock : ℤ} {trace : List (ServiceEvent ι)} {s : Service ι}
    (run : Run (ServiceStep d) (d.start clock) trace s) (i : ι) :
    (s.reads i).length = trace.countP (ServiceEvent.answers i .now) := by
  refine run.invariant_trace
    (P := fun trace s => (s.reads i).length = trace.countP (ServiceEvent.answers i .now)) rfl ?_
  rintro trace s e s' - ih hstep
  rw [List.countP_cons, ← ih]
  cases hstep with
  | @readClock j next hcall =>
      show (Function.update s.reads j (s.reads j ++ [s.clock]) i).length = _
      by_cases hij : i = j
      · subst hij
        simp [ServiceEvent.answers]
      · simp [ServiceEvent.answers, Function.update_of_ne hij, Ne.symm hij]
  | tick => rfl
  | get => simp [ServiceEvent.answers, Service.goto]
  | put => rfl
  | putAgain => rfl
  | reply => simp [ServiceEvent.answers, Service.goto]
  | failGet => rfl
  | failPut => rfl

/-- A handler reads the clock twice at most. -/
theorem length_reads_le {clock : ℤ} {trace : List (ServiceEvent ι)} {s : Service ι}
    (run : Run (ServiceStep d) (d.start clock) trace s) (i : ι) : (s.reads i).length ≤ 2 :=
  length_reads run i ▸ countP_answers_le run i .now

/-! ### Requests that visit no counter -/

/-- A handler that has answered is not moved any more. -/
theorem ServiceStep.handler_of_done {s s' : Service ι} {e : ServiceEvent ι}
    (hstep : ServiceStep d s e s') {i : ι} {result : Except HandlerFailure Response}
    (hdone : s.handler i = .done result) : s'.handler i = .done result := by
  rcases hstep.handler_cases i with ⟨hsame, -⟩ | ⟨c, next, reply, hcall, -⟩
  · rw [hsame, hdone]
  · cases hdone.symm.trans hcall

omit [DecidableEq ι] in
/-- A request that visits no counter is answered by `admission`, or it names a counter that
is not allowed. -/
theorem program_of_not_visits {i : ι} (hvisits : ¬ d.Visits i (d.counter i)) :
    (∃ result, admission d.crates (d.requests i) = .error result ∧ d.program i = .done result) ∨
      d.program i = .call .now fun _ => .done (.ok notFound) := by
  rw [Deployment.program, handlerProgram_eq]
  cases hadmission : admission d.crates (d.requests i) with
  | error result => exact Or.inl ⟨result, rfl, rfl⟩
  | ok info =>
      refine Or.inr ?_
      dsimp only
      congr 1
      funext seen
      rw [visitProgram_eq, if_neg]
      intro hallowed
      exact hvisits ⟨⟨info, hadmission⟩, rfl, by simpa using hallowed⟩

/-- A handler that visits no counter has not moved, or it has answered with a 404. -/
theorem handler_of_not_visits {clock : ℤ} {trace : List (ServiceEvent ι)} {s : Service ι}
    (run : Run (ServiceStep d) (d.start clock) trace s) {i : ι}
    (hvisits : ¬ d.Visits i (d.counter i)) :
    s.handler i = d.program i ∨ s.handler i = .done (.ok notFound) := by
  refine run.invariant (P := fun s => s.handler i = d.program i ∨
    s.handler i = .done (.ok notFound)) (Or.inl rfl) ?_
  rintro s e s' h hstep
  rcases h with hstart | hdone
  · rcases hstep.handler_cases i with ⟨hsame, -⟩ | ⟨c, next, reply, hcall, hnext, -⟩
    · exact Or.inl (hsame.trans hstart)
    · rw [hstart] at hcall
      rcases program_of_not_visits hvisits with ⟨result, -, hdone⟩ | hclock
      · cases hdone.symm.trans hcall
      · obtain ⟨rfl, hnext'⟩ := Program.call.inj (hclock.symm.trans hcall)
        obtain rfl := eq_of_heq hnext'
        exact Or.inr hnext
  · exact Or.inr (hstep.handler_of_done hdone)

/-- A handler that has more to do with the table than reading the clock visits its counter. -/
theorem visits_of_mem {clock : ℤ} {trace : List (ServiceEvent ι)} {s : Service ι}
    (run : Run (ServiceStep d) (d.start clock) trace s) {i : ι} :
    ∀ e ∈ trace, e.id = some i → e ≠ .readClock i → d.Visits i (d.counter i) := by
  refine run.invariant_trace (P := fun trace _ => ∀ e ∈ trace, e.id = some i → e ≠ .readClock i →
    d.Visits i (d.counter i)) (fun _ he => nomatch he) ?_
  rintro trace s e s' hbefore ih hstep
  refine List.forall_mem_cons.mpr ⟨fun hid hread => ?_, ih⟩
  have hkeyed := Keyed.run hbefore
  have hadmits : ∀ {c : Call} {next : c.Reply → HandlerProgram}, s.handler i = .call c next →
      c ≠ .now → d.Visits i (d.counter i) := fun hcall hnow =>
    ((hkeyed.call hcall).resolve_left hnow).1
  cases hstep with
  | tick => cases hid
  | readClock => exact absurd (congrArg _ (Option.some.inj hid)) hread
  | get hcall => exact hadmits (Option.some.inj hid ▸ hcall) (by simp)
  | put hcall => exact hadmits (Option.some.inj hid ▸ hcall) (by simp)
  | putAgain => cases hid
  | reply hcall => exact hadmits (Option.some.inj hid ▸ hcall) (by simp)
  | failGet hcall => exact hadmits (Option.some.inj hid ▸ hcall) (by simp)
  | failPut hcall => exact hadmits (Option.some.inj hid ▸ hcall) (by simp)

/-- **Who calls the table, and how often.**  Whatever the table answers and in whatever
order things happen: every put that is sent or applied is one of an admitted request, in
the table that is configured, under the name of the allowed counter that the request
names, and under one of the two conditions of the store; no other item changes.  A
request that is not admitted, or names a counter that is not allowed, never calls the
table and is answered with a 404, or as `admission` says.  No handler reads the clock more
than twice, or gets or puts more often than it has attempts. -/
theorem table_calls_admitted {d : Deployment ι} {clock : ℤ} {trace : List (ServiceEvent ι)}
    {s : Service ι} (run : Run (ServiceStep d) (d.start clock) trace s) :
    (∀ put, put ∈ s.sent ∨ put ∈ s.log → ∃ name request, d.Visits put.author name ∧
        put.input = PutRequest.input d.ciborium d.config.tableName name request) ∧
      (∀ name, (∀ i, ¬ d.Visits i name) → d.versions s.log name = (d.items name).toList) ∧
      (∀ i, ¬ d.Visits i (d.counter i) →
        (∀ e ∈ trace, e.id = some i → e = .readClock i) ∧
        ∀ result, s.handler i = .done result →
          result = .ok notFound ∨ admission d.crates (d.requests i) = .error result) ∧
      ∀ i, trace.countP (ServiceEvent.answers i .now) ≤ 2 ∧
        trace.countP (ServiceEvent.answers i .get) ≤ maxAttemptsForOptimisticLocking ∧
        trace.countP (ServiceEvent.answers i .put) ≤ maxAttemptsForOptimisticLocking := by
  have hkeyed := Keyed.run run
  have hputs : ∀ put, put ∈ s.sent ∨ put ∈ s.log → ∃ name request, d.Visits put.author name ∧
      put.input = PutRequest.input d.ciborium d.config.tableName name request := by
    intro put hput
    rcases hput.elim (hkeyed.sent put) (hkeyed.log put) with hnow | ⟨hvisits, request, hinput⟩
    · cases hnow
    · exact ⟨_, request, hvisits, hinput⟩
  refine ⟨hputs, fun name hnobody => ?_, fun i hvisits => ⟨fun e he hid => ?_, ?_⟩, fun i =>
    ⟨countP_answers_le run i .now, countP_answers_le run i .get, countP_answers_le run i .put⟩⟩
  · have hnone : underKey name s.log = [] := by
      refine List.filter_eq_nil_iff.mpr fun put hput hkey => ?_
      obtain ⟨name', request, hvisits, hinput⟩ := hputs put (Or.inr hput)
      have hkey' := of_decide_eq_true hkey
      rw [hinput, PutRequest.input_item, keyOf_attributes] at hkey'
      obtain rfl := Option.some.inj hkey'
      exact hnobody _ hvisits
    rw [Deployment.versions, hnone]
    rfl
  · by_contra hread
    exact hvisits (visits_of_mem run e he hid hread)
  · intro result hdone
    rcases handler_of_not_visits run hvisits with hstart | hanswered
    · rcases program_of_not_visits hvisits with ⟨result', hadmission, hprogram⟩ | hprogram
      · rw [hstart, hprogram] at hdone
        exact Or.inr (Program.done.inj hdone ▸ hadmission)
      · rw [hstart, hprogram] at hdone
        cases hdone
    · exact Or.inl (Program.done.inj (hanswered.symm.trans hdone)).symm

/-- Two visitors, by example. -/
inductive Guest where
  | first
  | second
deriving DecidableEq, Repr

/-- Both visit one counter. -/
def twoRequests : Deployment Guest where
  crates := Crates.reference
  ciborium := Ciborium.reference
  config := ⟨"table", 5, ["default"]⟩
  requests
    | .first => ⟨requestOf "Mozilla/5.0" "1.2.3.4", "/", none⟩
    | .second => ⟨requestOf "Mozilla/5.0" "5.6.7.8", "/", none⟩
  items _ := none

/-- Both try to create the item, and one of them has to try again. -/
def raceOfTwo : List (ServiceEvent Guest) :=
  [.reply .second true, .put .second true,
    .get .second (some (StoredItem.attributes Ciborium.reference "default"
      ⟨1, ⟨[⟨603546820, 100⟩]⟩⟩)),
    .reply .second false, .put .second false, .reply .first true, .put .first true,
    .get .second none, .get .first none,
    .readClock .second, .readClock .second, .readClock .first, .readClock .first]

/-- The puts that are applied in the race, newest first. -/
def putsOfTwo : List (SentPut Guest) :=
  [⟨.second, PutRequest.input Ciborium.reference "table" "default"
      ⟨some 1, ⟨2, ⟨[⟨603546820, 100⟩, ⟨1484864595, 100⟩]⟩⟩⟩⟩,
    ⟨.first, PutRequest.input Ciborium.reference "table" "default"
      ⟨none, ⟨1, ⟨[⟨603546820, 100⟩]⟩⟩⟩⟩]

/-- The race is a run of the service. -/
theorem run_raceOfTwo :
    ∃ s, Run (fun s e s' => ServiceStep twoRequests s e s' ∧ s.Truthful e)
        (twoRequests.start 1690000100000000000) raceOfTwo s ∧
      s.clock = 1690000100000000000 ∧ s.log = putsOfTwo ∧
      s.reads = fun _ => [1690000100000000000, 1690000100000000000] :=
  ⟨_, run_of_exec_guarded (fun _ _ _ => serviceStep_sound) rfl, rfl, rfl,
    funext fun i => by cases i <;> rfl⟩

/-- What two visitors put is under the name of the counter that they visit. -/
theorem table_calls_admitted_twoRequests :
    ∃ s, Run (ServiceStep twoRequests) (twoRequests.start 1690000100000000000) raceOfTwo s ∧
      s.log = putsOfTwo ∧ ∀ put ∈ s.log, ∃ name request, twoRequests.Visits put.author name ∧
        put.input = PutRequest.input Ciborium.reference "table" name request := by
  obtain ⟨s, run, -, hlog, -⟩ := run_raceOfTwo
  have hrun := run.mono fun _ _ _ hstep => hstep.1
  exact ⟨s, hrun, hlog, fun put hput => (table_calls_admitted hrun).1 put (Or.inr hput)⟩

end VisitorCounter

import VisitorCounter.Refinement

/-!
# What becomes known of a visitor

The store keeps a 32-bit hash of the address and the user agent of a visitor, to roughly
track uniqueness without identifying anybody.  Nothing else of them gets any further:
visitors of one counter that have one tag are not told apart, neither in the table nor in
the responses, whatever happens.

## Main Definitions

* `Indistinguishable`: two requests are both turned away, or agree in the counter and the tag
* `Deployment.asking`: the same deployment with other requests

## Main Results

* `SameCalls.step`: every step of the service is one with the other requests too
* `table_learns_tags_only`: so is every run
-/

namespace VisitorCounter

open Runs Programs

/-! ### Requests -/

/-- Two requests are both turned away, or name one counter for visitors with one tag. -/
inductive Indistinguishable (crates : Crates) (event event' : HandlerRequest) : Prop
  | rejected {result result' : Except HandlerFailure Response}
      (h : admission crates event = .error result) (h' : admission crates event' = .error result')
  | admitted {info info' : RequestInfo} (h : admission crates event = .ok info)
      (h' : admission crates event' = .ok info') (hname : event'.countName = event.countName)
      (htag : (Visitor.ofRequestInfo crates.md5 0 info').tag =
        (Visitor.ofRequestInfo crates.md5 0 info).tag)

/-- Visitors with one tag are the same at every time. -/
theorem ofRequestInfo_eq {md5 : ByteArray → Vector UInt8 16} {info info' : RequestInfo}
    (htag : (Visitor.ofRequestInfo md5 0 info').tag = (Visitor.ofRequestInfo md5 0 info).tag)
    (now : ℤ) : Visitor.ofRequestInfo md5 now info' = Visitor.ofRequestInfo md5 now info :=
  congrArg (fun tag => ({ tag := tag, lastSeen := now } : Visitor)) htag

/-- The same handler, or two that turn their requests away and call nothing. -/
theorem Indistinguishable.handlerProgram {crates : Crates} {event event' : HandlerRequest}
    (h : Indistinguishable crates event event') (ciborium : Ciborium) (config : Config) :
    handlerProgram crates ciborium config event' = handlerProgram crates ciborium config event ∨
      (¬ ∃ info, admission crates event = .ok info) ∧
        (∃ result, handlerProgram crates ciborium config event = .done result) ∧
        ∃ result, handlerProgram crates ciborium config event' = .done result := by
  rw [handlerProgram_eq, handlerProgram_eq]
  cases h with
  | rejected h h' =>
      rw [h, h']
      refine Or.inr ⟨?_, ⟨_, rfl⟩, ⟨_, rfl⟩⟩
      rintro ⟨info, hadmission⟩
      cases hadmission
  | admitted h h' hname htag =>
      rw [h, h', hname]
      simp only [ofRequestInfo_eq htag]
      exact Or.inl trivial

/-! ### Steps with other requests -/

variable {ι : Type} {d : Deployment ι} {requests : ι → HandlerRequest}

/-- The same deployment with other requests. -/
def Deployment.asking (d : Deployment ι) (requests : ι → HandlerRequest) : Deployment ι :=
  { d with requests := requests }

/-- Two services differ at most in the results of requests that were turned away. -/
structure SameCalls (d : Deployment ι) (s s' : Service ι) : Prop where
  rest : s' = { s with handler := s'.handler }
  handler : ∀ i, s'.handler i = s.handler i ∨
    (¬ ∃ info, admission d.crates (d.requests i) = .ok info) ∧
      (∃ result, s.handler i = .done result) ∧ ∃ result, s'.handler i = .done result

theorem SameCalls.start
    (halike : ∀ i, Indistinguishable d.crates (d.requests i) (requests i)) (clock : ℤ) :
    SameCalls d (d.start clock) ((d.asking requests).start clock) where
  rest := rfl
  handler i := (halike i).handlerProgram d.ciborium d.config

/-- A call in one service is made in the other one too. -/
theorem SameCalls.call {s s' : Service ι} (h : SameCalls d s s') {i : ι} {c : Call}
    {next : c.Reply → HandlerProgram} (hcall : s.handler i = .call c next) :
    s'.handler i = .call c next := by
  rcases h.handler i with hsame | ⟨-, ⟨result, hdone⟩, -⟩
  · exact hsame.trans hcall
  · cases hdone.symm.trans hcall

variable [DecidableEq ι]

/-- A handler goes on in both services. -/
theorem SameCalls.goto {s s' : Service ι} (h : SameCalls d s s') (i : ι) (next : HandlerProgram) :
    SameCalls d (s.goto i next) (s'.goto i next) := by
  refine ⟨by rw [h.rest]; rfl, fun j => ?_⟩
  obtain rfl | hne := eq_or_ne j i
  · exact Or.inl (by simp [Service.goto])
  · simpa [Service.goto, Function.update_of_ne hne] using h.handler j

/-- **Every step of the service is one with the other requests too.** -/
theorem SameCalls.step {s s' t : Service ι} {e : ServiceEvent ι} (h : SameCalls d s s')
    (hstep : ServiceStep d s e t) :
    ∃ t', ServiceStep (d.asking requests) s' e t' ∧ SameCalls d t t' := by
  obtain ⟨clock, handler, reads, log, sent, replies⟩ := s'
  obtain ⟨rfl, rfl, rfl, rfl, rfl⟩ : clock = s.clock ∧ reads = s.reads ∧ log = s.log ∧
      sent = s.sent ∧ replies = s.replies := by simpa using h.rest
  cases hstep with
  | tick hclock hrep => exact ⟨_, .tick hclock hrep, rfl, h.handler⟩
  | readClock hcall => exact ⟨_, .readClock (h.call hcall), rfl, (h.goto _ _).handler⟩
  | get hcall hserves => exact ⟨_, .get (h.call hcall) hserves, h.goto _ _⟩
  | put hcall happlied => exact ⟨_, .put (h.call hcall) happlied, rfl, h.handler⟩
  | putAgain hsent happlied => exact ⟨_, .putAgain hsent happlied, rfl, h.handler⟩
  | reply hcall hreply => exact ⟨_, .reply (h.call hcall) hreply, h.goto _ _⟩
  | failGet hcall => exact ⟨_, .failGet (h.call hcall), h.goto _ _⟩
  | failPut hcall => exact ⟨_, .failPut (h.call hcall), h.goto _ _⟩

/-- **The table learns no more than the tags.**  Replace the requests by others that cannot
be distinguished from them: the same things can happen in the same order, the same puts are
sent and applied, the clock is read at the same times, and every request that is admitted
gets the same response. -/
theorem table_learns_tags_only
    (halike : ∀ i, Indistinguishable d.crates (d.requests i) (requests i)) {clock : ℤ}
    {trace : List (ServiceEvent ι)} {s : Service ι}
    (run : Run (ServiceStep d) (d.start clock) trace s) :
    ∃ s', Run (ServiceStep (d.asking requests)) ((d.asking requests).start clock) trace s' ∧
      s'.log = s.log ∧ s'.sent = s.sent ∧ s'.reads = s.reads ∧
      ∀ i, (∃ info, admission d.crates (d.requests i) = .ok info) → s'.handler i = s.handler i := by
  suffices h : ∃ s', Run (ServiceStep (d.asking requests)) ((d.asking requests).start clock) trace
      s' ∧ SameCalls d s s' by
    obtain ⟨s', run', hsame⟩ := h
    refine ⟨s', run', by rw [hsame.rest], by rw [hsame.rest], by rw [hsame.rest], ?_⟩
    intro i hadmission
    rcases hsame.handler i with heq | ⟨hrejected, -⟩
    · exact heq
    · exact absurd hadmission hrejected
  induction run with
  | nil => exact ⟨_, .nil, .start halike clock⟩
  | cons _ hstep ih =>
      obtain ⟨s', run', hsame⟩ := ih
      obtain ⟨t', hstep', hsame'⟩ := hsame.step hstep
      exact ⟨t', .cons run' hstep', hsame'⟩

/-- Crates that do what the real ones do for the text that the next two visitors hash to. -/
def cratesOfBlurred : Crates :=
  { Crates.reference with
    md5 := fun _ => #v[230, 226, 96, 171, 158, 56, 141, 29, 101, 123, 164, 198, 104, 241, 176, 64] }

/-- A visitor whose address runs into the user agent, as that of another visitor does. -/
def blurredRequest : Deployment Unit where
  crates := cratesOfBlurred
  ciborium := Ciborium.reference
  config := ⟨"table", 5, ["default"]⟩
  requests _ := ⟨requestOf "foo bar baz" "1.2.3.45", "/", none⟩
  items _ := none

/-- The request of the other visitor. -/
def otherRequest : HandlerRequest := ⟨requestOf "5foo bar baz" "1.2.3.4", "/", none⟩

/-- The visit of either of them. -/
def eitherVisit : List (ServiceEvent Unit) :=
  [.reply () true, .put () true, .get () none, .readClock (), .readClock ()]

/-- The other visitor could have been here just as well. -/
theorem table_learns_tags_only_blurredRequest : ∃ s s',
    Run (ServiceStep blurredRequest) (blurredRequest.start 1690000100000000000) eitherVisit s ∧
      Run (ServiceStep (blurredRequest.asking fun _ => otherRequest))
        ((blurredRequest.asking fun _ => otherRequest).start 1690000100000000000) eitherVisit s' ∧
      s.log.length = 1 ∧ s'.log = s.log ∧ s'.handler () = s.handler () := by
  obtain ⟨s, run, hlog⟩ : ∃ s, Run (ServiceStep blurredRequest)
      (blurredRequest.start 1690000100000000000) eitherVisit s ∧ s.log.length = 1 :=
    ⟨_, run_of_exec (fun _ _ _ => serviceStep_sound) rfl, rfl⟩
  have hadmission : admission blurredRequest.crates (blurredRequest.requests ()) =
      .ok ⟨"foo bar baz", "1.2.3.45"⟩ := rfl
  have hother : admission blurredRequest.crates otherRequest =
      .ok ⟨"5foo bar baz", "1.2.3.4"⟩ := rfl
  have halike : ∀ i, Indistinguishable blurredRequest.crates (blurredRequest.requests i)
      ((fun _ => otherRequest) i) := fun _ => .admitted hadmission hother rfl rfl
  obtain ⟨s', run', hsame, -, -, hresponse⟩ := table_learns_tags_only halike run
  exact ⟨s, s', run, run', hlog, hsame, hresponse () ⟨_, hadmission⟩⟩

end VisitorCounter

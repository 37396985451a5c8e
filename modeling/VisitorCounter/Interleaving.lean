import VisitorCounter.Attempt
import VisitorCounter.Library.Runs

/-!
# Interleaved invocations of `maybe_increment_visitors`

Any number of invocations work on the item of one counter.  Each runs the retry
loop of the source: get the item, prepare a put, wait for its reply, start over
when the condition failed.  The table answers a get with any version the item
ever had (reads are not strongly consistent) or with its absence, and it applies
a put by an atomic check and replacement.

## Main Definitions

* `Phase`, `loop`, `afterGet`, `afterReply`: where an invocation stands in the loop
* `System`, `State`, `Event`, `Step`: the invocations, the table, and their steps
* `step`: the steps as a computation
* `Truthful`, `Consistent`, `Faultless`: what some results assume of the table

## Main Results

* `step_iff`: the computation is the relation
* `Step.phase_eq_of_ne`: a step moves one invocation only
* `Step.versions_eq`, `Step.of_applies`: what a step does to the item
* `Step.phase_rule`: what a step does to the phase of an invocation
* `Step.sent_cases`, `Step.waiting_cases`: how a put comes to be on its way

## Design Notes

The steps are the most generous reading of the environment: stale reads, puts
that are delivered more than once, lost replies, errors at any time.  A result
that needs less is stated for the runs whose steps satisfy `Truthful`,
`Consistent` or `Faultless`.  An invocation that never moves again (a Lambda that
was stopped) is a run in which it takes no further step.
-/

namespace VisitorCounter

open Runs

/-- How an invocation ends. -/
inductive Outcome where
  | ok (count : UInt64)
  | error (error : BoxError)
  | panicked (panic : Panic)
deriving DecidableEq, Repr

/-- Where an invocation stands in its retry loop.  While it waits for the reply
to its put, `loaded` is the item its get returned, kept to state what the put
was prepared from, and `replies` are the outcomes of the deliveries so far. -/
inductive Phase where
  | get (attempt : ℕ)
  | put (attempt : ℕ) (loaded : Option StoredItem) (request : PutRequest) (replies : List Bool)
  | done (outcome : Outcome)
deriving DecidableEq, Repr

/-- The head of the loop, `while attempt < MAX_ATTEMPTS_FOR_OPTIMISTIC_LOCKING`. -/
def loop (attempt : ℕ) : Phase :=
  if attempt < maxAttemptsForOptimisticLocking then .get attempt
  else .done (.error maxAttemptsExceeded)

/-- The loop body from the reply to the get up to the put. -/
def afterGet (inv : Invocation) (attempt : ℕ) (loaded : Option StoredItem) : Phase :=
  match inv.attempt loaded with
  | .ok request => .put attempt loaded request []
  | .error panic => .done (.panicked panic)

/-- The end of the loop body: return the count that was put, or try again. -/
def afterReply (attempt : ℕ) (request : PutRequest) (applied : Bool) : Phase :=
  if applied then .done (.ok request.item.count) else loop (attempt + 1)

/-- The invocations on one counter, and its item before the first of them. -/
structure System (ι : Type) where
  calls : ι → Invocation
  initial : Option StoredItem

/-- A put by an invocation.  Applied, it is a version of the item. -/
structure Version (ι : Type) where
  author : ι
  request : PutRequest
deriving DecidableEq, Repr

/-- The table and the invocations: the versions of the item that were put, newest
first, the phase of every invocation, and every put that was ever sent. -/
structure State (ι : Type) where
  versions : List (Version ι)
  phase : ι → Phase
  sent : List (Version ι)

/-- What can happen next. -/
inductive Event (ι : Type) where
  /-- The reply to the get of an invocation arrives. -/
  | get (i : ι) (loaded : Option StoredItem)
  /-- The put an invocation waits for is delivered to the table. -/
  | put (i : ι) (request : PutRequest) (applied : Bool)
  /-- A put is delivered once more, whatever its invocation does by now. -/
  | putAgain (i : ι) (request : PutRequest) (applied : Bool)
  /-- The reply to the put of an invocation arrives. -/
  | reply (i : ι) (applied : Bool)
  /-- An invocation gets an error of the DynamoDB client. -/
  | fail (i : ι) (error : BoxError)
deriving DecidableEq, Repr

/-- The invocation an event belongs to. -/
def Event.id {ι : Type} : Event ι → ι
  | .get i _ => i
  | .put i _ _ => i
  | .putAgain i _ _ => i
  | .reply i _ => i
  | .fail i _ => i

namespace System

variable {ι : Type}

/-- Every version of the item so far, newest first. -/
def items (sys : System ι) (versions : List (Version ι)) : List StoredItem :=
  versions.map (fun v => v.request.item) ++ sys.initial.toList

/-- The item as it is now. -/
def current (sys : System ι) (versions : List (Version ι)) : Option StoredItem :=
  (sys.items versions).head?

/-- The stored count, `0` while there is no item. -/
def storedCount (sys : System ι) (versions : List (Version ι)) : ℕ :=
  match sys.current versions with
  | some item => item.count.toNat
  | none => 0

/-- The tags of the stored list. -/
def storedTags (sys : System ι) (versions : List (Version ι)) : List UInt32 :=
  match sys.current versions with
  | some item => item.recent.map StoredVisitor.tag
  | none => []

/-- The visitor of the author of a version. -/
abbrev visitorOf (sys : System ι) (v : Version ι) : Visitor := (sys.calls v.author).visitor

/-- What a get can return: the absence of the item, or any version of it so far. -/
def Serves (sys : System ι) (versions : List (Version ι)) (loaded : Option StoredItem) : Prop :=
  loaded = none ∨ ∃ item ∈ sys.items versions, loaded = some item

instance (sys : System ι) (versions : List (Version ι)) (loaded : Option StoredItem) :
    Decidable (sys.Serves versions loaded) :=
  inferInstanceAs (Decidable (_ ∨ _))

/-- No invocation has started. -/
def start (_sys : System ι) : State ι where
  versions := []
  phase _ := loop 0
  sent := []

@[simp] theorem items_cons (sys : System ι) (v : Version ι) (versions : List (Version ι)) :
    sys.items (v :: versions) = v.request.item :: sys.items versions := rfl

@[simp] theorem items_nil (sys : System ι) : sys.items [] = sys.initial.toList := rfl

@[simp] theorem current_cons (sys : System ι) (v : Version ι) (versions : List (Version ι)) :
    sys.current (v :: versions) = some v.request.item := rfl

@[simp] theorem current_nil (sys : System ι) : sys.current [] = sys.initial := by
  cases h : sys.initial <;> simp [current, h]

/-- There is no item only as long as there never was one. -/
theorem current_eq_none_iff {sys : System ι} {versions : List (Version ι)} :
    sys.current versions = none ↔ versions = [] ∧ sys.initial = none := by
  cases versions with
  | nil => simp
  | cons v versions => simp

@[simp] theorem storedCount_cons (sys : System ι) (v : Version ι) (versions : List (Version ι)) :
    sys.storedCount (v :: versions) = v.request.item.count.toNat := rfl

@[simp] theorem storedTags_cons (sys : System ι) (v : Version ι) (versions : List (Version ι)) :
    sys.storedTags (v :: versions) = v.request.item.recent.map StoredVisitor.tag := rfl

theorem storedCount_of_current {sys : System ι} {versions : List (Version ι)} {item : StoredItem}
    (h : sys.current versions = some item) : sys.storedCount versions = item.count.toNat := by
  rw [storedCount, h]

/-- The current item is a version. -/
theorem mem_items_of_current {sys : System ι} {versions : List (Version ι)} {item : StoredItem}
    (h : sys.current versions = some item) : item ∈ sys.items versions :=
  List.mem_of_head? h

end System

variable {ι : Type} [DecidableEq ι]

namespace State

/-- An invocation moves to a phase. -/
def goto (s : State ι) (i : ι) (phase : Phase) : State ι :=
  { s with phase := Function.update s.phase i phase }

/-- A put arrives at the table and is applied or not. -/
def deliver (s : State ι) (v : Version ι) (applied : Bool) : State ι :=
  { s with versions := if applied then v :: s.versions else s.versions }

/-- A put leaves its invocation. -/
def send (s : State ι) (i : ι) : Phase → State ι
  | .put _ _ request _ => { s with sent := ⟨i, request⟩ :: s.sent }
  | _ => s

/-- The outcomes of the deliveries an invocation waits for. -/
def replies (s : State ι) (i : ι) : List Bool :=
  match s.phase i with
  | .put _ _ _ replies => replies
  | _ => []

@[simp] theorem goto_versions (s : State ι) (i : ι) (phase : Phase) :
    (s.goto i phase).versions = s.versions := rfl

@[simp] theorem goto_sent (s : State ι) (i : ι) (phase : Phase) :
    (s.goto i phase).sent = s.sent := rfl

@[simp] theorem goto_phase_self (s : State ι) (i : ι) (phase : Phase) :
    (s.goto i phase).phase i = phase := by
  simp [goto]

theorem goto_phase_of_ne (s : State ι) {i j : ι} (phase : Phase) (h : j ≠ i) :
    (s.goto i phase).phase j = s.phase j := by
  simp [goto, Function.update_of_ne h]

omit [DecidableEq ι] in
@[simp] theorem deliver_phase (s : State ι) (v : Version ι) (applied : Bool) :
    (s.deliver v applied).phase = s.phase := rfl

omit [DecidableEq ι] in
@[simp] theorem deliver_versions_true (s : State ι) (v : Version ι) :
    (s.deliver v true).versions = v :: s.versions := rfl

omit [DecidableEq ι] in
@[simp] theorem send_versions (s : State ι) (i : ι) (phase : Phase) :
    (s.send i phase).versions = s.versions := by
  cases phase <;> rfl

omit [DecidableEq ι] in
@[simp] theorem send_phase (s : State ι) (i : ι) (phase : Phase) :
    (s.send i phase).phase = s.phase := by
  cases phase <;> rfl

end State

/-- One step of the invocations and the table. -/
inductive Step (sys : System ι) (s : State ι) : Event ι → State ι → Prop
  | get {i : ι} {attempt : ℕ} {loaded : Option StoredItem} (hphase : s.phase i = .get attempt)
      (hserves : sys.Serves s.versions loaded) :
      Step sys s (.get i loaded)
        ((s.send i (afterGet (sys.calls i) attempt loaded)).goto i
          (afterGet (sys.calls i) attempt loaded))
  | put {i : ι} {attempt : ℕ} {loaded : Option StoredItem} {request : PutRequest}
      {replies : List Bool} {applied : Bool}
      (hphase : s.phase i = .put attempt loaded request replies)
      (happlied : applied = request.holds (sys.current s.versions)) :
      Step sys s (.put i request applied)
        ((s.deliver ⟨i, request⟩ applied).goto i (.put attempt loaded request (applied :: replies)))
  | putAgain {i : ι} {request : PutRequest} {applied : Bool} (hsent : ⟨i, request⟩ ∈ s.sent)
      (happlied : applied = request.holds (sys.current s.versions)) :
      Step sys s (.putAgain i request applied) (s.deliver ⟨i, request⟩ applied)
  | reply {i : ι} {attempt : ℕ} {loaded : Option StoredItem} {request : PutRequest}
      {replies : List Bool} {applied : Bool}
      (hphase : s.phase i = .put attempt loaded request replies)
      (hreply : applied ∈ replies) :
      Step sys s (.reply i applied) (s.goto i (afterReply attempt request applied))
  | fail {i : ι} {error : BoxError} (hphase : ∀ outcome, s.phase i ≠ .done outcome) :
      Step sys s (.fail i error) (s.goto i (.done (.error error)))

/-- One step, as a computation. -/
def step (sys : System ι) (s : State ι) : Event ι → Option (State ι)
  | .get i loaded =>
      match s.phase i with
      | .get attempt =>
          let next := afterGet (sys.calls i) attempt loaded
          if sys.Serves s.versions loaded then some ((s.send i next).goto i next) else none
      | _ => none
  | .put i request applied =>
      match s.phase i with
      | .put attempt loaded own replies =>
          if own = request ∧ applied = request.holds (sys.current s.versions) then
            some ((s.deliver ⟨i, request⟩ applied).goto i
              (.put attempt loaded request (applied :: replies)))
          else none
      | _ => none
  | .putAgain i request applied =>
      if ⟨i, request⟩ ∈ s.sent ∧ applied = request.holds (sys.current s.versions) then
        some (s.deliver ⟨i, request⟩ applied)
      else none
  | .reply i applied =>
      match s.phase i with
      | .put attempt _ request replies =>
          if applied ∈ replies then some (s.goto i (afterReply attempt request applied)) else none
      | _ => none
  | .fail i error =>
      match s.phase i with
      | .done _ => none
      | _ => some (s.goto i (.done (.error error)))

/-- The computation takes the steps of the relation. -/
theorem step_sound {sys : System ι} {s s' : State ι} {e : Event ι}
    (h : step sys s e = some s') : Step sys s e s' := by
  cases e with
  | get i loaded =>
      simp only [step] at h
      split at h
      · rename_i attempt hphase
        split at h
        · rename_i hserves
          obtain rfl := Option.some.inj h
          exact .get hphase hserves
        · cases h
      · cases h
  | put i request applied =>
      simp only [step] at h
      split at h
      · rename_i attempt loaded own replies hphase
        split at h
        · rename_i hcond
          obtain ⟨rfl, happlied⟩ := hcond
          obtain rfl := Option.some.inj h
          exact .put hphase happlied
        · cases h
      · cases h
  | putAgain i request applied =>
      simp only [step] at h
      split at h
      · rename_i hcond
        obtain rfl := Option.some.inj h
        exact .putAgain hcond.1 hcond.2
      · cases h
  | reply i applied =>
      simp only [step] at h
      split at h
      · rename_i attempt loaded request replies hphase
        split at h
        · rename_i hreply
          obtain rfl := Option.some.inj h
          exact .reply hphase hreply
        · cases h
      · cases h
  | fail i error =>
      simp only [step] at h
      split at h
      · cases h
      · rename_i hphase
        obtain rfl := Option.some.inj h
        exact .fail hphase

/-- The computation is the relation. -/
theorem step_iff {sys : System ι} {s s' : State ι} {e : Event ι} :
    step sys s e = some s' ↔ Step sys s e s' := by
  refine ⟨step_sound, fun h => ?_⟩
  cases h with
  | get hphase hserves => simp [step, hphase, hserves]
  | put hphase happlied => simp [step, hphase, ← happlied]
  | putAgain hsent happlied => simp [step, hsent, ← happlied]
  | reply hphase hreply => simp [step, hphase, hreply]
  | @fail i error hphase =>
      cases hp : s.phase i with
      | done outcome => exact absurd hp (hphase outcome)
      | get attempt => simp [step, hp]
      | put attempt loaded request replies => simp [step, hp]

/-! ### Assumptions on the table -/

/-- Puts are acknowledged truthfully: a put reaches the table once, its
invocation gets the outcome as the reply, and an error of the client means that
the put has not reached the table. -/
def Truthful (s : State ι) : Event ι → Prop
  | .get _ _ => True
  | .put i _ _ => s.replies i = []
  | .putAgain _ _ _ => False
  | .reply _ _ => True
  | .fail i _ => s.replies i = []

/-- Gets return the item as it is, and no put is delivered after its invocation
has moved on. -/
def Consistent (sys : System ι) (s : State ι) : Event ι → Prop
  | .get _ loaded => loaded = sys.current s.versions
  | .put _ _ _ => True
  | .putAgain _ _ _ => False
  | .reply _ _ => True
  | .fail _ _ => True

instance decidableTruthful (s : State ι) : (e : Event ι) → Decidable (Truthful s e)
  | .get _ _ => isTrue trivial
  | .put i _ _ => inferInstanceAs (Decidable (s.replies i = []))
  | .putAgain _ _ _ => isFalse id
  | .reply _ _ => isTrue trivial
  | .fail i _ => inferInstanceAs (Decidable (s.replies i = []))

instance decidableConsistent (sys : System ι) (s : State ι) :
    (e : Event ι) → Decidable (Consistent sys s e)
  | .get _ loaded => inferInstanceAs (Decidable (loaded = sys.current s.versions))
  | .put _ _ _ => isTrue trivial
  | .putAgain _ _ _ => isFalse id
  | .reply _ _ => isTrue trivial
  | .fail _ _ => isTrue trivial

/-- Gets are consistent, puts are acknowledged truthfully, and the client reports
no error. -/
def Faultless (sys : System ι) (s : State ι) : Event ι → Prop
  | .get _ loaded => loaded = sys.current s.versions
  | .put i _ _ => s.replies i = []
  | .putAgain _ _ _ => False
  | .reply _ _ => True
  | .fail _ _ => False

instance decidableFaultless (sys : System ι) (s : State ι) :
    (e : Event ι) → Decidable (Faultless sys s e)
  | .get _ loaded => inferInstanceAs (Decidable (loaded = sys.current s.versions))
  | .put i _ _ => inferInstanceAs (Decidable (s.replies i = []))
  | .putAgain _ _ _ => isFalse id
  | .reply _ _ => isTrue trivial
  | .fail _ _ => isFalse id

omit [DecidableEq ι] in
theorem Faultless.truthful {sys : System ι} {s : State ι} {e : Event ι}
    (h : Faultless sys s e) : Truthful s e := by
  cases e with
  | get => trivial
  | put => exact h
  | putAgain => exact h
  | reply => trivial
  | fail => exact h.elim

/-! ### One step -/

/-- A step moves the invocation of its event and no other. -/
theorem Step.phase_eq_of_ne {sys : System ι} {s s' : State ι} {e : Event ι}
    (h : Step sys s e s') {j : ι} (hj : j ≠ e.id) : s'.phase j = s.phase j := by
  cases h with
  | get => exact (State.goto_phase_of_ne _ _ hj).trans (by rw [State.send_phase])
  | put => exact (State.goto_phase_of_ne _ _ hj).trans (by rw [State.deliver_phase])
  | putAgain => rw [State.deliver_phase]
  | reply => exact State.goto_phase_of_ne _ _ hj
  | fail => exact State.goto_phase_of_ne _ _ hj

theorem loop_ne_put (n attempt : ℕ) (loaded : Option StoredItem) (request : PutRequest)
    (replies : List Bool) : loop n ≠ .put attempt loaded request replies := by
  unfold loop
  split <;> simp

/-- After the reply to its put, an invocation waits for no put. -/
theorem afterReply_ne_put (n : ℕ) (own : PutRequest) (applied : Bool) (attempt : ℕ)
    (loaded : Option StoredItem) (request : PutRequest) (replies : List Bool) :
    afterReply n own applied ≠ .put attempt loaded request replies := by
  unfold afterReply
  split
  · simp
  · exact loop_ne_put _ _ _ _ _

/-- After a get, an invocation waits for the put of that attempt. -/
theorem afterGet_eq_put {inv : Invocation} {n attempt : ℕ} {got loaded : Option StoredItem}
    {request : PutRequest} {replies : List Bool}
    (h : afterGet inv n got = .put attempt loaded request replies) :
    attempt = n ∧ loaded = got ∧ replies = [] ∧ inv.attempt got = .ok request := by
  unfold afterGet at h
  split at h
  · rename_i own hown
    simp only [Phase.put.injEq] at h
    obtain ⟨rfl, rfl, rfl, rfl⟩ := h
    exact ⟨rfl, rfl, rfl, hown⟩
  · cases h

/-- A put that was sent, or that its author waits for. -/
def State.OnItsWay (s : State ι) (v : Version ι) : Prop :=
  v ∈ s.sent ∨ ∃ attempt loaded replies, s.phase v.author = .put attempt loaded v.request replies

/-- The put that an event applies. -/
def Event.applies : Event ι → Option (Version ι)
  | .put i request true => some ⟨i, request⟩
  | .putAgain i request true => some ⟨i, request⟩
  | _ => none

omit [DecidableEq ι] in
theorem Event.author_of_applies {e : Event ι} {v : Version ι} (h : e.applies = some v) :
    v.author = e.id := by
  unfold Event.applies at h
  split at h
  · rw [← Option.some.inj h, Event.id]
  · rw [← Option.some.inj h, Event.id]
  · cases h

/-- **What a step does to the item**: it has the put that the event applies on top. -/
theorem Step.versions_eq {sys : System ι} {s s' : State ι} {e : Event ι} (h : Step sys s e s') :
    s'.versions = e.applies.toList ++ s.versions := by
  cases h with
  | get => exact State.send_versions _ _ _
  | @put i attempt loaded request replies applied => cases applied <;> rfl
  | @putAgain i request applied => cases applied <;> rfl
  | reply => rfl
  | fail => rfl

/-- An applied put was on its way, and its condition holds. -/
theorem Step.of_applies {sys : System ι} {s s' : State ι} {e : Event ι} (h : Step sys s e s')
    {v : Version ι} (hv : e.applies = some v) :
    s.OnItsWay v ∧ v.request.holds (sys.current s.versions) = true := by
  cases h with
  | get => cases hv
  | @put i attempt loaded request replies applied hphase happlied =>
      cases applied with
      | false => cases hv
      | true =>
          obtain rfl := Option.some.inj hv
          exact ⟨Or.inr ⟨_, _, _, hphase⟩, happlied.symm⟩
  | @putAgain i request applied hsent happlied =>
      cases applied with
      | false => cases hv
      | true =>
          obtain rfl := Option.some.inj hv
          exact ⟨Or.inl hsent, happlied.symm⟩
  | reply => cases hv
  | fail => cases hv

/-- **What a step does to the phase of an invocation**: `P` holds after the step if it
holds of what each event makes of the phase. -/
theorem Step.phase_rule {P : Phase → Prop} {sys : System ι} {s s' : State ι} {e : Event ι}
    (h : Step sys s e s') (i : ι) (others : i ≠ e.id → P (s.phase i))
    (get : ∀ attempt loaded, e = .get i loaded → s.phase i = .get attempt →
      sys.Serves s.versions loaded → P (afterGet (sys.calls i) attempt loaded))
    (put : ∀ attempt loaded request replies applied, e = .put i request applied →
      s.phase i = .put attempt loaded request replies →
      applied = request.holds (sys.current s.versions) →
      P (.put attempt loaded request (applied :: replies)))
    (putAgain : ∀ request applied, e = .putAgain i request applied → P (s.phase i))
    (reply : ∀ attempt loaded request replies applied, e = .reply i applied →
      s.phase i = .put attempt loaded request replies → applied ∈ replies →
      P (afterReply attempt request applied))
    (fail : ∀ error, e = .fail i error → (∀ outcome, s.phase i ≠ .done outcome) →
      P (.done (.error error))) :
    P (s'.phase i) := by
  by_cases hi : i = e.id
  · subst hi
    cases h with
    | get hphase hserves =>
        rw [Event.id, State.goto_phase_self]
        exact get _ _ rfl hphase hserves
    | put hphase happlied =>
        rw [Event.id, State.goto_phase_self]
        exact put _ _ _ _ _ rfl hphase happlied
    | putAgain => exact putAgain _ _ rfl
    | reply hphase hreply =>
        rw [Event.id, State.goto_phase_self]
        exact reply _ _ _ _ _ rfl hphase hreply
    | fail hphase =>
        rw [Event.id, State.goto_phase_self]
        exact fail _ rfl hphase
  · rw [h.phase_eq_of_ne hi]
    exact others hi

/-- A put was sent before the step, or an attempt made it of what the get returned. -/
theorem Step.sent_cases {sys : System ι} {s s' : State ι} {e : Event ι} (h : Step sys s e s')
    {v : Version ι} (hv : v ∈ s'.sent) :
    v ∈ s.sent ∨ ∃ loaded, sys.Serves s.versions loaded ∧
      (sys.calls v.author).attempt loaded = .ok v.request := by
  cases h with
  | get hphase hserves =>
      rw [State.goto_sent] at hv
      unfold State.send at hv
      split at hv
      · rename_i hafter
        obtain ⟨-, rfl, -, hattempt⟩ := afterGet_eq_put hafter
        rcases List.mem_cons.mp hv with rfl | hv
        · exact Or.inr ⟨_, hserves, hattempt⟩
        · exact Or.inl hv
      · exact Or.inl hv
  | put => exact Or.inl hv
  | putAgain => exact Or.inl hv
  | reply => exact Or.inl hv
  | fail => exact Or.inl hv

/-- An invocation waited for its put before the step, or its attempt made the put of
what the get returned. -/
theorem Step.waiting_cases {sys : System ι} {s s' : State ι} {e : Event ι} (h : Step sys s e s')
    {i : ι} {attempt : ℕ} {loaded : Option StoredItem} {request : PutRequest}
    {replies : List Bool} (hwait : s'.phase i = .put attempt loaded request replies) :
    (∃ before, s.phase i = .put attempt loaded request before) ∨
      sys.Serves s.versions loaded ∧ (sys.calls i).attempt loaded = .ok request := by
  revert hwait
  refine h.phase_rule (P := fun phase => phase = .put attempt loaded request replies → _) i
    ?_ ?_ ?_ ?_ ?_ ?_
  · exact fun _ hwait => Or.inl ⟨_, hwait⟩
  · intro n got _ _ hserves hwait
    obtain ⟨-, rfl, -, hattempt⟩ := afterGet_eq_put hwait
    exact Or.inr ⟨hserves, hattempt⟩
  · intro n got own before applied _ hphase _ hwait
    obtain ⟨rfl, rfl, rfl, -⟩ := Phase.put.inj hwait
    exact Or.inl ⟨_, hphase⟩
  · exact fun _ _ _ hwait => Or.inl ⟨_, hwait⟩
  · exact fun _ _ _ _ _ _ _ _ hwait => absurd hwait (afterReply_ne_put _ _ _ _ _ _ _)
  · exact fun _ _ _ hwait => by cases hwait

end VisitorCounter

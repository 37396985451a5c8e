import VisitorCounter.HandlerProgram
import VisitorCounter.Response
import VisitorCounter.Revisit
import VisitorCounter.Sequential

/-!
# Requests one after the other

The whole Lambda on a table without failures, with requests that do not overlap.  Then
it is what its purpose says: a sliding window for every counter that is allowed, whose
counts are the responses.  The counters share the table and the clock, and nothing else.

## Main Definitions

* `DynamoTable.lambda`: what a handler is offered on a table, with a clock
* `handleAll`: the handlers of a sequence of requests
* `Windows`, `Windows.handle`, `windowsAll`: the responses of the sliding windows

## Main Results

* `run_functionHandler`: a handler on the table is one call of the store, or none
* `Agrees.handle`: a handler answers as the windows do and keeps the table in step with them
* `requests_answered`: the responses to a sequence of requests
-/

namespace VisitorCounter

open Runs

/-! ### A table with a clock -/

section Lambda

variable {σ κ : Type}

/-- A step on the first half of the state. -/
def beside {α : Type} (x : StateM σ α) : StateM (σ × κ) α := do
  let (s, k) ← get
  let (a, s) := x.run s
  set (s, k)
  return a

/-- What a handler is offered on a table.  The clock is what it shows at each of its
readings; the state counts them. -/
def DynamoTable.lambda (db : DynamoTable σ) (ciborium : Ciborium) (tableName : String)
    (clock : ℕ → ℤ) : Lambda (StateM (σ × ℕ)) where
  now := do
    let (s, k) ← get
    set (s, k + 1)
    return clock k
  store := {
    client := {
      getItem := fun input => beside (db.client.getItem input)
      putItem := fun input => beside (db.client.putItem input) }
    ciborium := ciborium
    tableName := tableName }

/-- A step that does what another one does on the first half of the state, and no more. -/
def OnFirst {α : Type} (x' : StateM (σ × κ) α) (x : StateM σ α) : Prop :=
  ∀ s k, x'.run (s, k) = ((x.run s).1, (x.run s).2, k)

theorem onFirst_beside {α : Type} (x : StateM σ α) : OnFirst (beside x : StateM (σ × κ) α) x :=
  fun _ _ => rfl

theorem onFirst_pure {α : Type} (a : α) : OnFirst (pure a : StateM (σ × κ) α) (pure a) :=
  fun _ _ => rfl

theorem OnFirst.bind {α β : Type} {x' : StateM (σ × κ) α} {x : StateM σ α}
    {f' : α → StateM (σ × κ) β} {f : α → StateM σ β} (hx : OnFirst x' x)
    (hf : ∀ a, OnFirst (f' a) (f a)) : OnFirst (x' >>= f') (x >>= f) := by
  intro s k
  show (f' (x'.run (s, k)).1).run (x'.run (s, k)).2 = _
  rw [hx s k]
  exact hf _ _ _

variable {db : DynamoTable σ} {ciborium : Ciborium} {tableName : String} {clock : ℕ → ℤ}

@[simp] theorem DynamoTable.lambda_ciborium :
    (db.lambda ciborium tableName clock).store.ciborium = ciborium := rfl

@[simp] theorem DynamoTable.lambda_tableName :
    (db.lambda ciborium tableName clock).store.tableName = tableName := rfl

/-- The retry loop does not touch the clock. -/
theorem onFirst_attempts (name : String) (inv : Invocation) (left : ℕ) :
    OnFirst
      ((db.lambda ciborium tableName clock).store.attempts inv.visitor name inv.now left).run
      ((db.store ciborium tableName).attempts inv.visitor name inv.now left).run := by
  induction left with
  | zero => exact onFirst_pure _
  | succ left ih =>
      rw [Store.attempts_run_succ, Store.attempts_run_succ]
      refine (onFirst_beside _).bind fun reply => ?_
      simp only [DynamoTable.lambda_ciborium, DynamoTable.store_ciborium]
      cases readReply ciborium reply with
      | error failure => exact onFirst_pure _
      | ok loaded =>
          simp only [Store.update, DynamoTable.lambda_ciborium, DynamoTable.store_ciborium,
            DynamoTable.lambda_tableName, DynamoTable.store_tableName]
          cases preparePut ciborium tableName name inv loaded with
          | error panic => exact onFirst_pure _
          | ok put =>
              refine (onFirst_beside _).bind fun reply => ?_
              cases putReply reply with
              | error error => exact onFirst_pure _
              | ok applied =>
                  cases applied with
                  | true => exact onFirst_pure _
                  | false => exact ih

/-- **A handler on the table is one call of the store, or none.** -/
theorem run_functionHandler (crates : Crates) (config : Config) (event : HandlerRequest) (t : σ)
    (k : ℕ) :
    (functionHandler crates config (db.lambda ciborium tableName clock) event).run.run (t, k) =
      match admission crates event with
      | .error result => (result, t, k)
      | .ok info =>
          if config.allowedNames.any fun allowed => allowed == event.countName then
            let visit : Invocation :=
              ⟨Visitor.ofRequestInfo crates.md5 (clock k) info, clock (k + 1)⟩
            let out := db.call ciborium tableName event.countName visit t
            (answer crates config visit.visitor event.countName out.1, out.2, k + 2)
          else (.ok notFound, t, k + 1) := by
  rw [functionHandler_run]
  cases admission crates event with
  | error result => rfl
  | ok info =>
      show ((db.lambda ciborium tableName clock).visit crates config event.countName
        (Visitor.ofRequestInfo crates.md5 (clock k) info)).run (t, k + 1) = _
      rw [Lambda.visit]
      dsimp only
      split
      · show (fun out => (answer crates config _ event.countName out.1, out.2))
          (((db.lambda ciborium tableName clock).store.attempts _ event.countName (clock (k + 1))
            maxAttemptsForOptimisticLocking).run.run (t, k + 2)) = _
        rw [onFirst_attempts event.countName
          ⟨Visitor.ofRequestInfo crates.md5 (clock k) info, clock (k + 1)⟩ _ t (k + 2)]
        rfl
      · rfl

end Lambda

/-! ### The handlers of a sequence -/

/-- The handlers of a sequence of requests, and their results, newest first. -/
def handleAll {m : Type → Type} [Monad m] (crates : Crates) (config : Config) (lambda : Lambda m) :
    List HandlerRequest → m (List (Except HandlerFailure Response))
  | [] => return []
  | event :: earlier => do
      let results ← handleAll crates config lambda earlier
      let result ← (functionHandler crates config lambda event).run
      return result :: results

theorem run_handleAll_cons {σ : Type} (crates : Crates) (config : Config)
    (lambda : Lambda (StateM σ)) (event : HandlerRequest) (earlier : List HandlerRequest) (s : σ) :
    (handleAll crates config lambda (event :: earlier)).run s =
      let before := (handleAll crates config lambda earlier).run s
      let after := (functionHandler crates config lambda event).run.run before.2
      (after.1 :: before.1, after.2) := rfl

/-- The visits of every counter so far, newest first, and how often the clock was read. -/
structure Windows where
  visits : String → List Invocation
  readings : ℕ

/-- A visit to a counter, after two readings of the clock. -/
def Windows.visit (w : Windows) (name : String) (visit : Invocation) : Windows :=
  ⟨Function.update w.visits name (visit :: w.visits name), w.readings + 2⟩

section Visit

variable {w : Windows} {name other : String} {visit : Invocation}

@[simp] theorem Windows.visit_readings : (w.visit name visit).readings = w.readings + 2 := rfl

@[simp] theorem Windows.visit_visits_self :
    (w.visit name visit).visits name = visit :: w.visits name :=
  Function.update_self ..

theorem Windows.visit_visits_of_ne (hne : other ≠ name) :
    (w.visit name visit).visits other = w.visits other :=
  Function.update_of_ne hne ..

end Visit

/-- What the windows answer to a request: a visit is counted unless its counter has seen
the visitor within the window before, and the response is the number of visits counted. -/
def Windows.handle (crates : Crates) (config : Config) (clock : ℕ → ℤ) (w : Windows)
    (event : HandlerRequest) : Except HandlerFailure Response × Windows :=
  match admission crates event with
  | .error result => (result, w)
  | .ok info =>
      if config.allowedNames.any fun allowed => allowed == event.countName then
        let visit : Invocation :=
          ⟨Visitor.ofRequestInfo crates.md5 (clock w.readings) info, clock (w.readings + 1)⟩
        let w' := w.visit event.countName visit
        (respond crates config visit.visitor event.countName
          (UInt64.ofNat ((decisions (w'.visits event.countName)).countP Decision.counted)), w')
      else (.ok notFound, { w with readings := w.readings + 1 })

/-- What the windows answer to a sequence of requests, newest first. -/
def windowsAll (crates : Crates) (config : Config) (clock : ℕ → ℤ) :
    List HandlerRequest → List (Except HandlerFailure Response) × Windows
  | [] => ([], ⟨fun _ => [], 0⟩)
  | event :: earlier =>
      let (results, w) := windowsAll crates config clock earlier
      let (result, w) := w.handle crates config clock event
      (result :: results, w)

/-- The tags inside the window at each visit fit one list. -/
def WindowsFit : List Invocation → Prop
  | [] => True
  | visit :: earlier =>
      (windowTags (decisions earlier) visit).card ≤ maxRecentVisitors ∧ WindowsFit earlier

/-! ### The windows and the table -/

section Agrees

variable {σ : Type} {db : DynamoTable σ} {ciborium : Ciborium} {crates : Crates} {config : Config}
  {clock : ℕ → ℤ} {before : String → Option Item} {t : σ} {w : Windows}

/-- The table is in step with the windows of the counters that are allowed, and the other
items are those from before. -/
structure Agrees (db : DynamoTable σ) (ciborium : Ciborium) (config : Config) (clock : ℕ → ℤ)
    (before : String → Option Item) (t : σ) (w : Windows) : Prop where
  sequential : ∀ name, Sequential (w.visits name)
  now_le : ∀ name, ∀ visit ∈ w.visits name, visit.now ≤ clock w.readings
  reflects : ∀ name ∈ config.allowedNames, ∃ stored, Reflects stored (decisions (w.visits name)) ∧
    db.items t name = stored.map (StoredItem.attributes ciborium name)
  others : ∀ name, w.visits name = [] → db.items t name = before name

/-- A reading of the clock does not change the windows. -/
theorem Agrees.tick (h : Agrees db ciborium config clock before t w) (hmono : Monotone clock) :
    Agrees db ciborium config clock before t { w with readings := w.readings + 1 } where
  sequential := h.sequential
  now_le name visit hvisit := (h.now_le name visit hvisit).trans (hmono (Nat.le_succ _))
  reflects := h.reflects
  others := h.others

/-- A visit after the visits of its counter. -/
theorem Agrees.sequential_cons (h : Agrees db ciborium config clock before t w)
    (hmono : Monotone clock) (hrep : ∀ k, Representable (clock k)) {name : String}
    {visitor : Visitor} (hseen : visitor.lastSeen = clock w.readings)
    (hfit : WindowsFit (⟨visitor, clock (w.readings + 1)⟩ :: w.visits name)) :
    Sequential (⟨visitor, clock (w.readings + 1)⟩ :: w.visits name) := by
  refine ⟨⟨hseen.trans_le (hmono (Nat.le_succ _)), ?_, hseen ▸ hrep _, hrep _, hfit.1⟩,
    h.sequential name⟩
  have hnow := h.now_le name
  cases hvisits : w.visits name with
  | nil => exact fun d hd => nomatch hd
  | cons last earlier =>
      rw [hvisits] at hnow
      rintro _ ⟨⟩
      exact (hnow last List.mem_cons_self).trans hseen.ge

/-- **A call of the store answers as the window of its counter does.** -/
theorem Agrees.visit (h : Agrees db ciborium config clock before t w)
    (hmono : Monotone clock) (hrep : ∀ k, Representable (clock k)) {name : String}
    (hname : name ∈ config.allowedNames) {visitor : Visitor}
    (hseen : visitor.lastSeen = clock w.readings)
    (hfit : WindowsFit (⟨visitor, clock (w.readings + 1)⟩ :: w.visits name)) :
    ∃ t', db.call ciborium config.tableName name ⟨visitor, clock (w.readings + 1)⟩ t =
        (.ok (UInt64.ofNat ((decisions
          (⟨visitor, clock (w.readings + 1)⟩ :: w.visits name)).countP Decision.counted)), t') ∧
      Agrees db ciborium config clock before t'
        (w.visit name ⟨visitor, clock (w.readings + 1)⟩) := by
  have hvisits := h.sequential_cons hmono hrep hseen hfit
  obtain ⟨stored, hreflects, hstored⟩ := h.reflects name hname
  obtain ⟨request, hattempt, -, hfollows⟩ := attempt_reflects hreflects hvisits
  have hlength : ∀ item ∈ stored, item.recent.length < 2 ^ 64 := by
    rintro item rfl
    exact (Follows.length_le hreflects).trans_lt (by rw [maxRecentVisitors_eq]; norm_num)
  obtain ⟨t', hcall, hitems⟩ : ∃ t', db.call ciborium config.tableName name
      ⟨visitor, clock (w.readings + 1)⟩ t = (.ok request.item.count, t') ∧ _ :=
    run_maybeIncrementVisitors hstored hlength hattempt
  have hold : ∀ other, ∀ visit ∈ w.visits other, visit.now ≤ clock (w.readings + 2) :=
    fun other visit hvisit => (h.now_le other visit hvisit).trans (hmono (Nat.le_add_right _ 2))
  refine ⟨t', by rw [hcall, ← hfollows.count, UInt64.ofNat_toNat], ?_⟩
  -- The counter visited has the new visit and the new item; the others keep theirs.
  constructor <;> intro other
  · obtain rfl | hne := eq_or_ne other name
    · simpa using hvisits
    · simpa [Windows.visit_visits_of_ne hne] using h.sequential other
  · obtain rfl | hne := eq_or_ne other name
    · simpa using ⟨hmono (Nat.le_succ _), hold other⟩
    · simpa [Windows.visit_visits_of_ne hne] using hold other
  · intro hother
    obtain rfl | hne := eq_or_ne other name
    · refine ⟨some request.item, ?_, by rw [hitems, Function.update_self]; rfl⟩
      simpa using show Reflects (some request.item) _ from hfollows
    · simpa [hitems, Windows.visit_visits_of_ne hne, Function.update_of_ne hne]
        using h.reflects other hother
  · obtain rfl | hne := eq_or_ne other name
    · simp
    · simpa [hitems, Windows.visit_visits_of_ne hne, Function.update_of_ne hne]
        using h.others other

/-- **A handler answers as the windows do**, and keeps the table in step with them. -/
theorem Agrees.handle (h : Agrees db ciborium config clock before t w)
    (hmono : Monotone clock) (hrep : ∀ k, Representable (clock k)) {event : HandlerRequest}
    (hfit : ∀ name, WindowsFit ((w.handle crates config clock event).2.visits name)) :
    ∃ t', (functionHandler crates config (db.lambda ciborium config.tableName clock)
          event).run.run (t, w.readings) =
        ((w.handle crates config clock event).1, t',
          (w.handle crates config clock event).2.readings) ∧
      Agrees db ciborium config clock before t' (w.handle crates config clock event).2 := by
  rw [run_functionHandler]
  unfold Windows.handle at hfit ⊢
  cases hadmission : admission crates event with
  | error result => exact ⟨t, rfl, h⟩
  | ok info =>
      cases hallowed : config.allowedNames.any fun allowed => allowed == event.countName with
      | false =>
          simp only [Bool.false_eq_true, if_false]
          exact ⟨t, rfl, h.tick hmono⟩
      | true =>
          simp only [hadmission, hallowed, if_true] at hfit ⊢
          have hname : event.countName ∈ config.allowedNames := by simpa using hallowed
          have hfits := hfit event.countName
          rw [Windows.visit_visits_self] at hfits ⊢
          obtain ⟨t', hcall, hagrees⟩ := h.visit hmono hrep hname
            (show (Visitor.ofRequestInfo crates.md5 (clock w.readings) info).lastSeen = _ from rfl)
            hfits
          refine ⟨t', ?_, hagrees⟩
          rw [hcall]
          rfl

/-- Nothing has happened yet. -/
theorem Agrees.start (hnone : ∀ name ∈ config.allowedNames, db.items t name = none) :
    Agrees db ciborium config clock (db.items t) t ⟨fun _ => [], 0⟩ where
  sequential _ := trivial
  now_le _ := fun _ hvisit => absurd hvisit List.not_mem_nil
  reflects name hname := ⟨none, rfl, hnone name hname⟩
  others _ _ := rfl

/-- Visits that fit one list after a request fit it before. -/
theorem WindowsFit.of_handle {event : HandlerRequest} {name : String}
    (h : WindowsFit ((w.handle crates config clock event).2.visits name)) :
    WindowsFit (w.visits name) := by
  unfold Windows.handle at h
  cases hadmission : admission crates event with
  | error result => simpa only [hadmission] using h
  | ok info =>
      simp only [hadmission] at h
      split at h
      · obtain rfl | hne := eq_or_ne name event.countName
        · rw [Windows.visit_visits_self] at h
          exact h.2
        · rwa [Windows.visit_visits_of_ne hne] at h
      · exact h

end Agrees

/-- **Requests that do not overlap are answered by sliding windows.**  The table does not
fail and has no items yet for the allowed counters; the clock does not run backwards and is
in range; and the visitors that a window has at a time fit one list.  Then the handlers of
any sequence of requests, to any counters, answer as one window for each counter does.  The
table then holds the count of each window, and the items of the counters not visited are
untouched. -/
theorem requests_answered {σ : Type} (db : DynamoTable σ) (ciborium : Ciborium)
    (crates : Crates) (config : Config) {clock : ℕ → ℤ} (hmono : Monotone clock)
    (hrep : ∀ k, Representable (clock k)) {t : σ}
    (hnone : ∀ name ∈ config.allowedNames, db.items t name = none)
    (events : List HandlerRequest)
    (hfits : ∀ name, WindowsFit ((windowsAll crates config clock events).2.visits name)) :
    ∃ t', (handleAll crates config (db.lambda ciborium config.tableName clock) events).run (t, 0) =
        ((windowsAll crates config clock events).1, t',
          (windowsAll crates config clock events).2.readings) ∧
      (∀ name ∈ config.allowedNames, tableCount (db.items t') name =
        (decisions ((windowsAll crates config clock events).2.visits name)).countP
          Decision.counted) ∧
      ∀ name, (windowsAll crates config clock events).2.visits name = [] →
        db.items t' name = db.items t name := by
  suffices h : ∃ t',
      (handleAll crates config (db.lambda ciborium config.tableName clock) events).run (t, 0) =
        ((windowsAll crates config clock events).1, t',
          (windowsAll crates config clock events).2.readings) ∧
      Agrees db ciborium config clock (db.items t) t' (windowsAll crates config clock events).2 by
    obtain ⟨t', hrun, hagrees⟩ := h
    refine ⟨t', hrun, fun name hname => ?_, hagrees.others⟩
    obtain ⟨stored, hreflects, hstored⟩ := hagrees.reflects name hname
    exact tableCount_of_reflects hreflects hstored
  -- The induction is on the requests, the last one in front; its windows fit, so those
  -- before it do.
  induction events with
  | nil => exact ⟨t, rfl, .start hnone⟩
  | cons event earlier ih =>
      obtain ⟨t₁, hrun, hagrees⟩ := ih fun name => (hfits name).of_handle
      obtain ⟨t', hhandle, hagrees'⟩ := hagrees.handle hmono hrep hfits
      refine ⟨t', ?_, hagrees'⟩
      rw [run_handleAll_cons, hrun]
      dsimp only
      rw [hhandle]
      rfl

/-- A visitor, another one and the first again, then one who asks for the icon of the site;
newest first. -/
def fourEvents : List HandlerRequest :=
  [⟨requestOf "Mozilla/5.0" "5.6.7.8", "/favicon.ico", none⟩,
    ⟨requestOf "Mozilla/5.0" "1.2.3.4", "/", none⟩,
    ⟨requestOf "Mozilla/5.0" "5.6.7.8", "/", some [("name", ["default"])]⟩,
    ⟨requestOf "Mozilla/5.0" "1.2.3.4", "/", none⟩]

/-- The windows after the four requests. -/
theorem windowsAll_fourEvents :
    (windowsAll Crates.reference ⟨"table", 5, ["default"]⟩ (fun _ => 1690000100000000000)
      fourEvents).2 =
        ((Windows.visit ⟨fun _ => [], 0⟩ "default"
          ⟨⟨603546820, 1690000100000000000⟩, 1690000100000000000⟩).visit "default"
          ⟨⟨1484864595, 1690000100000000000⟩, 1690000100000000000⟩).visit "default"
          ⟨⟨603546820, 1690000100000000000⟩, 1690000100000000000⟩ := rfl

/-- The four requests are answered by one window, in which there are two visitors. -/
theorem requests_answered_fourEvents : ∃ results t',
    (handleAll Crates.reference ⟨"table", 5, ["default"]⟩
      (DynamoTable.reference.lambda Ciborium.reference "table" fun _ => 1690000100000000000)
      fourEvents).run (fun _ => none, 0) = (.ok notFound :: results, t', 6) ∧
    tableCount t' "default" = 2 ∧ ∀ name, name ≠ "default" → t' name = none := by
  have hothers : ∀ name, name ≠ "default" →
      (windowsAll Crates.reference ⟨"table", 5, ["default"]⟩ (fun _ => 1690000100000000000)
        fourEvents).2.visits name = [] := by
    intro name hne
    simp only [windowsAll_fourEvents, Windows.visit_visits_of_ne hne]
  obtain ⟨t', hrun, hcount, hkept⟩ := requests_answered DynamoTable.reference Ciborium.reference
    Crates.reference ⟨"table", 5, ["default"]⟩ (monotone_const)
    (fun _ => show Representable 1690000100000000000 by decide) (fun _ _ => rfl) fourEvents
    (fun name => by
      obtain rfl | hne := eq_or_ne name "default"
      · exact ⟨by decide, by decide, by decide, trivial⟩
      · rw [hothers name hne]
        trivial)
  exact ⟨_, t', hrun, hcount "default" (by decide), fun name hne => hkept name (hothers name hne)⟩

end VisitorCounter

import VisitorCounter.History

/-!
# Every increment is counted once

With puts that are acknowledged truthfully, the stored count is the number of
creations and new-visitor puts, every invocation has at most one applied put, and
the counts that the counted invocations return are `1, 2, 3, ..`.  Nothing here
depends on times, pruning or culling, or on gets being up to date.

## Main Definitions

* `TruthfulStep`: the steps with truthful acknowledgements
* `Accounted`: what the phase of an invocation says about its applied puts
* `newVisitorPuts`: the applied creations and new-visitor puts of a trace, told
  from refreshes by what their invocations loaded
* `Counted`, `Pending`: invocations with such a put, and those that have not
  heard of their applied put

## Main Results

* `Lineage.storedCount_eq`: the stored count is the number of counted puts
* `newVisitorPuts_eq`: the counted puts are the creations and the new-visitor puts
* `Lineage.counts_eq`: the counts of the counted puts, in order, are `1, 2, 3, ..`
* `accounted_run`: every invocation is accounted for in every run
* `increments_reconciled`: no increment is lost or duplicated
-/

namespace VisitorCounter

open Runs

variable {ι : Type} {sys : System ι} {versions : List (Version ι)}

/-! ### The stored count -/

/-- The puts that were counted. -/
abbrev counted (versions : List (Version ι)) : List (Version ι) :=
  versions.filter fun v => v.request.counts

/-- The counts stay below the last `u64`. -/
abbrev CountsBelow (versions : List (Version ι)) : Prop :=
  ∀ v ∈ versions, v.request.item.count.toNat < 2 ^ 64 - 1

/-- A counted put is a creation or a push. -/
theorem Prepared.counts_eq_true_iff {v : Version ι} {loaded : Option StoredItem}
    (h : Prepared sys versions v loaded) :
    v.request.counts = true ↔
      loaded = none ∨ ∃ item, loaded = some item ∧ Pushes (sys.calls v.author) item v.request := by
  rcases h.cases with ⟨rfl, -, hrequest⟩ | ⟨item, -, rfl, hrefresh | hpush⟩
  · simp [hrequest, PutRequest.counts]
  · refine ⟨fun hcounts => ?_, ?_⟩
    · rw [hrefresh.counts_eq_false] at hcounts
      cases hcounts
    · rintro (hloaded | ⟨other, hother, hpush⟩)
      · cases hloaded
      · exact hpush.counts_eq_true
  · exact ⟨fun _ => Or.inr ⟨item, rfl, hpush⟩, fun _ => hpush.counts_eq_true⟩

/-- An applied put raises the stored count by one when it is counted. -/
theorem Prepared.storedCount_cons {v : Version ι} {loaded : Option StoredItem}
    (h : Prepared sys versions v loaded) (hholds : v.request.holds (sys.current versions) = true)
    (hbelow : ∀ item, sys.current versions = some item → item.count.toNat < 2 ^ 64 - 1) :
    sys.storedCount (v :: versions) =
      sys.storedCount versions + if v.request.counts then 1 else 0 := by
  rw [System.storedCount_cons]
  rcases h.cases with ⟨rfl, -, hrequest⟩ | ⟨item, -, rfl, hrefresh | hpush⟩
  · rw [hrequest, PutRequest.holds_none_left] at hholds
    simp [System.storedCount, hholds, hrequest, PutRequest.counts]
  · obtain ⟨cur, hcur, hsame⟩ := hrefresh.written.holds_iff.mp hholds
    rw [System.storedCount_of_current hcur, hrefresh.count, hrefresh.counts_eq_false, hsame]
    rfl
  · obtain ⟨cur, hcur, hsame⟩ := hpush.written.holds_iff.mp hholds
    rw [System.storedCount_of_current hcur, hpush.count, hpush.counts_eq_true, ← hsame,
      toNat_add_one (hbelow cur hcur)]
    rfl

/-- An applied put that is not counted keeps the current count. -/
theorem Prepared.count_current_eq {v : Version ι} {loaded : Option StoredItem}
    (h : Prepared sys versions v loaded) (hholds : v.request.holds (sys.current versions) = true)
    (hcounts : v.request.counts = false) :
    (sys.current versions).map StoredItem.count = some v.request.item.count := by
  rcases h.cases with ⟨rfl, -, hrequest⟩ | ⟨item, -, rfl, hrefresh | hpush⟩
  · rw [hrequest] at hcounts
    cases hcounts
  · obtain ⟨cur, hcur, hsame⟩ := hrefresh.written.holds_iff.mp hholds
    rw [hcur, hrefresh.count, ← hsame]
    rfl
  · rw [hpush.counts_eq_true] at hcounts
    cases hcounts

theorem CountsBelow.current (hnone : sys.initial = none) (h : CountsBelow versions)
    (item : StoredItem) (hcur : sys.current versions = some item) :
    item.count.toNat < 2 ^ 64 - 1 := by
  have hitem := System.mem_items_of_current hcur
  rw [System.items, hnone, Option.toList_none, List.append_nil] at hitem
  obtain ⟨v, hv, rfl⟩ := List.mem_map.mp hitem
  exact h v hv

/-- **The stored count is the number of counted puts.** -/
theorem Lineage.storedCount_eq (h : Lineage sys versions) (hnone : sys.initial = none)
    (hbelow : CountsBelow versions) : sys.storedCount versions = (counted versions).length := by
  induction h with
  | nil => simp [System.storedCount, hnone]
  | @put versions v loaded hlineage hprep hholds ih =>
      have hearlier : CountsBelow versions := fun w hw => hbelow w (List.mem_cons_of_mem _ hw)
      rw [hprep.storedCount_cons hholds (hearlier.current hnone), ih hearlier, counted, counted,
        List.filter_cons]
      split <;> simp

/-- **The counts of the counted puts**, oldest first, are `1, 2, 3, ..`. -/
theorem Lineage.counts_eq (h : Lineage sys versions) (hnone : sys.initial = none)
    (hbelow : CountsBelow versions) :
    (counted versions).map (fun v => v.request.item.count.toNat) =
      (List.range' 1 (counted versions).length).reverse := by
  induction h with
  | nil => rfl
  | @put versions v loaded hlineage hprep hholds ih =>
      have hearlier : CountsBelow versions := fun w hw => hbelow w (List.mem_cons_of_mem _ hw)
      have hcount := (hlineage.put hprep hholds).storedCount_eq hnone hbelow
      rw [System.storedCount_cons] at hcount
      cases hcounts : v.request.counts with
      | false => simpa [counted, hcounts] using ih hearlier
      | true =>
          -- The new count is one more than the number of counted puts before.
          have hsplit : counted (v :: versions) = v :: counted versions := by
            simp [counted, hcounts]
          rw [hsplit, List.length_cons] at hcount
          rw [hsplit, List.map_cons, ih hearlier, hcount, List.length_cons, List.range'_1_concat,
            List.reverse_append]
          simp [Nat.add_comm]

/-- The counts of two counted puts differ. -/
theorem Lineage.eq_of_count_eq (h : Lineage sys versions) (hnone : sys.initial = none)
    (hbelow : CountsBelow versions) {v w : Version ι} (hv : v ∈ counted versions)
    (hw : w ∈ counted versions) (hcount : v.request.item.count = w.request.item.count) : v = w := by
  refine List.inj_on_of_nodup_map (f := fun v => v.request.item.count.toNat) ?_ hv hw
    (congrArg UInt64.toNat hcount)
  rw [h.counts_eq hnone hbelow]
  exact List.nodup_reverse.mpr List.nodup_range'

/-- There is a counted put with each count up to the stored one. -/
theorem Lineage.exists_counted_iff (h : Lineage sys versions) (hnone : sys.initial = none)
    (hbelow : CountsBelow versions) (n : ℕ) :
    (∃ v ∈ counted versions, v.request.item.count.toNat = n) ↔
      1 ≤ n ∧ n ≤ sys.storedCount versions := by
  have hmem : (∃ v ∈ counted versions, v.request.item.count.toNat = n) ↔
      n ∈ (counted versions).map fun v => v.request.item.count.toNat := by
    rw [List.mem_map]
  rw [hmem, h.counts_eq hnone hbelow, h.storedCount_eq hnone hbelow, List.mem_reverse,
    List.mem_range'_1]
  omega

/-! ### The puts of one invocation -/

/-- What the phase of an invocation says about its applied puts, `own`. -/
def Accounted (i : ι) (own : List (Version ι)) : Phase → Prop
  | .get _ => own = []
  | .put _ _ request replies =>
      (replies = [] ∧ own = []) ∨ (replies = [false] ∧ own = []) ∨
        (replies = [true] ∧ own = [⟨i, request⟩])
  | .done (.ok n) => ∃ request, own = [⟨i, request⟩] ∧ request.item.count = n
  | .done _ => own = []

theorem accounted_loop (i : ι) (attempt : ℕ) : Accounted i [] (loop attempt) := by
  unfold loop
  split <;> rfl

/-- An invocation has at most one applied put. -/
theorem Accounted.length_le {i : ι} {own : List (Version ι)} {phase : Phase}
    (h : Accounted i own phase) : own.length ≤ 1 := by
  unfold Accounted at h
  split at h
  · simp [h]
  · rcases h with ⟨-, rfl⟩ | ⟨-, rfl⟩ | ⟨-, rfl⟩ <;> simp
  · obtain ⟨request, rfl, -⟩ := h
    simp
  · simp [h]

theorem accounted_afterGet (i : ι) (inv : Invocation) (attempt : ℕ)
    (loaded : Option StoredItem) : Accounted i [] (afterGet inv attempt loaded) := by
  unfold afterGet
  split
  · exact Or.inl ⟨rfl, rfl⟩
  · rfl

variable [DecidableEq ι]

/-- A step with truthful acknowledgements. -/
def TruthfulStep (sys : System ι) (s : State ι) (e : Event ι) (s' : State ι) : Prop :=
  Step sys s e s' ∧ Truthful s e

/-- The versions that an invocation wrote. -/
abbrev State.own (s : State ι) (i : ι) : List (Version ι) :=
  s.versions.filter fun v => v.author = i

/-- An invocation keeps its versions when it has no put applied. -/
theorem Step.own_eq {s s' : State ι} {e : Event ι} (h : Step sys s e s') {i : ι}
    (hother : ∀ v, e.applies = some v → v.author ≠ i) : s'.own i = s.own i := by
  rw [State.own, h.versions_eq]
  cases hv : e.applies with
  | none => rfl
  | some v =>
      rw [Option.toList_some, List.singleton_append, List.filter_cons_of_neg]
      simpa using hother v hv

/-- **A step keeps every invocation accounted for.** -/
theorem accounted_step {s s' : State ι} {e : Event ι} (hstep : TruthfulStep sys s e s')
    (h : ∀ i, Accounted i (s.own i) (s.phase i)) (i : ι) :
    Accounted i (s'.own i) (s'.phase i) := by
  obtain ⟨hstep, htruthful⟩ := hstep
  have hold := h i
  refine hstep.phase_rule (P := Accounted i (s'.own i)) i ?others ?get ?put ?putAgain ?reply ?fail
  case others =>
    intro hi
    rwa [hstep.own_eq fun v hv hauthor => hi (hauthor.symm.trans (Event.author_of_applies hv))]
  case get =>
    rintro attempt loaded rfl hphase -
    rw [hphase] at hold
    rw [hstep.own_eq (fun _ hv => by cases hv), hold]
    exact accounted_afterGet i _ _ _
  case put =>
    rintro attempt loaded request replies applied rfl hphase -
    simp only [Truthful, State.replies, hphase] at htruthful
    -- The put is delivered for the first time, so its author has no other one.
    subst htruthful
    rw [hphase] at hold
    have hnone : s.own i = [] := by simpa [Accounted] using hold
    rw [State.own, hstep.versions_eq, List.filter_append, ← State.own, hnone]
    cases applied <;> simp [Accounted, Event.applies]
  case putAgain =>
    rintro request applied rfl
    exact htruthful.elim
  case reply =>
    rintro attempt loaded request replies applied rfl hphase hreply
    rw [hphase] at hold
    rw [hstep.own_eq (fun _ hv => by cases hv), afterReply]
    rcases hold with ⟨rfl, hnone⟩ | ⟨rfl, hnone⟩ | ⟨rfl, hone⟩
    · cases hreply
    · obtain rfl := List.mem_singleton.mp hreply
      rw [hnone]
      exact accounted_loop i _
    · obtain rfl := List.mem_singleton.mp hreply
      exact ⟨request, hone, rfl⟩
  case fail =>
    rintro error rfl hphase
    rw [hstep.own_eq (fun _ hv => by cases hv)]
    cases hp : s.phase i with
    | get attempt =>
        rw [hp] at hold
        exact hold
    | put attempt loaded request replies =>
        -- A truthful error means that the put has not reached the table.
        simp only [Truthful, State.replies, hp] at htruthful
        rw [hp, htruthful] at hold
        simpa [Accounted] using hold
    | done outcome => exact absurd hp (hphase outcome)

/-- **Every invocation is accounted for in every run.** -/
theorem accounted_run {trace : List (Event ι)} {s : State ι}
    (run : Run (TruthfulStep sys) sys.start trace s) (i : ι) :
    Accounted i (s.own i) (s.phase i) :=
  run.invariant (P := fun s => ∀ i, Accounted i (s.own i) (s.phase i))
    (fun i => accounted_loop i 0) (fun _ _ _ h hstep => accounted_step hstep h) i

theorem TruthfulStep.run_step {s₀ s : State ι} {trace : List (Event ι)}
    (run : Run (TruthfulStep sys) s₀ trace s) : Run (Step sys) s₀ trace s :=
  run.mono fun _ _ _ h => h.1

/-! ### Applied puts and returned values in the trace -/

/-- The applied put an invocation waits for, or whose count it returned, is in the trace. -/
def Announced (trace : List (Event ι)) (i : ι) : Phase → Prop
  | .get _ => True
  | .put _ _ request replies => true ∈ replies → .put i request true ∈ trace
  | .done (.ok n) => ∃ request, .put i request true ∈ trace ∧ request.item.count = n
  | .done _ => True

omit [DecidableEq ι] in
theorem Announced.cons {trace : List (Event ι)} {i : ι} {phase : Phase}
    (h : Announced trace i phase) (e : Event ι) : Announced (e :: trace) i phase := by
  unfold Announced at *
  split at h
  · trivial
  · exact fun hreply => List.mem_cons_of_mem _ (h hreply)
  · obtain ⟨request, hmem, hcount⟩ := h
    exact ⟨request, List.mem_cons_of_mem _ hmem, hcount⟩
  · trivial

omit [DecidableEq ι] in
theorem announced_loop (trace : List (Event ι)) (i : ι) (attempt : ℕ) :
    Announced trace i (loop attempt) := by
  unfold loop
  split <;> trivial

/-- A step keeps every applied put announced. -/
theorem announced_step {trace : List (Event ι)} {s s' : State ι} {e : Event ι}
    (hstep : Step sys s e s') (h : ∀ i, Announced trace i (s.phase i)) (i : ι) :
    Announced (e :: trace) i (s'.phase i) := by
  have hold := h i
  refine hstep.phase_rule (P := Announced (e :: trace) i) i ?others ?get ?put ?putAgain ?reply ?fail
  case others => exact fun _ => hold.cons e
  case get =>
    rintro attempt loaded rfl hphase -
    rw [afterGet]
    split
    · exact fun hreply => absurd hreply List.not_mem_nil
    · trivial
  case put =>
    rintro attempt loaded request replies applied rfl hphase - hreply
    rw [hphase] at hold
    rcases List.mem_cons.mp hreply with rfl | hreply
    · exact List.mem_cons_self
    · exact List.mem_cons_of_mem _ (hold hreply)
  case putAgain => exact fun _ _ _ => hold.cons e
  case reply =>
    rintro attempt loaded request replies applied rfl hphase hreply
    rw [hphase] at hold
    rw [afterReply]
    cases applied with
    | true => exact ⟨request, List.mem_cons_of_mem _ (hold hreply), rfl⟩
    | false => exact announced_loop _ i _
  case fail => exact fun _ _ _ => trivial

theorem announced_run {trace : List (Event ι)} {s : State ι}
    (run : Run (Step sys) sys.start trace s) (i : ι) : Announced trace i (s.phase i) :=
  run.invariant_trace (P := fun trace s => ∀ i, Announced trace i (s.phase i))
    (fun i => announced_loop [] i 0) (fun _ _ _ _ _ h hstep => announced_step hstep h) i

/-! ### Creations and new-visitor puts -/

/-- What the last get of an invocation returned. -/
def lastLoaded (i : ι) : List (Event ι) → Option StoredItem
  | [] => none
  | .get j loaded :: earlier => if j = i then loaded else lastLoaded i earlier
  | _ :: earlier => lastLoaded i earlier

/-- The applied creations and new-visitor puts among some events, newest first, and not
the refreshes.  Which of them a put is depends on what its invocation loaded last,
among these events or `before` them. -/
def newVisitorPuts (sys : System ι) (before : List (Event ι)) : List (Event ι) → List (Version ι)
  | [] => []
  | .put i request true :: earlier =>
      if (sys.calls i).addsVisitor (lastLoaded i (earlier ++ before)) then
        ⟨i, request⟩ :: newVisitorPuts sys before earlier
      else newVisitorPuts sys before earlier
  | _ :: earlier => newVisitorPuts sys before earlier

/-- What the trace has of the put that an invocation waits for. -/
def Loaded (sys : System ι) (trace : List (Event ι)) (i : ι) : Phase → Prop
  | .put _ loaded request _ =>
      lastLoaded i trace = loaded ∧ (sys.calls i).attempt loaded = .ok request
  | _ => True

theorem loaded_loop (trace : List (Event ι)) (i : ι) (attempt : ℕ) :
    Loaded sys trace i (loop attempt) := by
  unfold loop
  split <;> trivial

/-- An event that is not a get of an invocation does not change what it loaded last. -/
theorem lastLoaded_cons {trace : List (Event ι)} {i : ι} {e : Event ι}
    (h : ∀ loaded, e ≠ .get i loaded) : lastLoaded i (e :: trace) = lastLoaded i trace := by
  cases e with
  | get j loaded =>
      rw [lastLoaded, if_neg]
      rintro rfl
      exact h loaded rfl
  | put => rfl
  | putAgain => rfl
  | reply => rfl
  | fail => rfl

theorem Loaded.cons {trace : List (Event ι)} {i : ι} {phase : Phase}
    (h : Loaded sys trace i phase) {e : Event ι} (he : ∀ loaded, e ≠ .get i loaded) :
    Loaded sys (e :: trace) i phase := by
  unfold Loaded at *
  split at h
  · rwa [lastLoaded_cons he]
  · trivial

/-- A step keeps what the invocations have loaded. -/
theorem loaded_step {trace : List (Event ι)} {s s' : State ι} {e : Event ι}
    (hstep : Step sys s e s') (h : ∀ i, Loaded sys trace i (s.phase i)) (i : ι) :
    Loaded sys (e :: trace) i (s'.phase i) := by
  have hold := h i
  refine hstep.phase_rule (P := Loaded sys (e :: trace) i) i
    ?others ?get ?put ?putAgain ?reply ?fail
  case others =>
    exact fun hi => hold.cons fun loaded he => hi (by rw [he]; rfl)
  case get =>
    rintro attempt loaded rfl hphase -
    rw [afterGet]
    cases hattempt : (sys.calls i).attempt loaded with
    | ok request => exact ⟨if_pos rfl, hattempt⟩
    | error panic => trivial
  case put =>
    rintro attempt loaded request replies applied rfl hphase -
    rw [hphase] at hold
    exact hold
  case putAgain =>
    rintro request applied rfl
    exact hold.cons (by simp)
  case reply =>
    rintro attempt loaded request replies applied rfl hphase -
    rw [afterReply]
    cases applied with
    | true => trivial
    | false => exact loaded_loop _ i _
  case fail => exact fun _ _ _ => trivial

theorem loaded_run {trace : List (Event ι)} {s : State ι}
    (run : Run (Step sys) sys.start trace s) (i : ι) : Loaded sys trace i (s.phase i) :=
  run.invariant_trace (P := fun trace s => ∀ i, Loaded sys trace i (s.phase i))
    (fun i => loaded_loop [] i 0) (fun _ _ _ _ _ h hstep => loaded_step hstep h) i

/-- The put of an event is a creation or a new-visitor put exactly if it is counted. -/
theorem newVisitorPuts_cons {trace : List (Event ι)} {s s' : State ι} {e : Event ι}
    (hstep : TruthfulStep sys s e s') (h : ∀ i, Loaded sys trace i (s.phase i)) :
    newVisitorPuts sys [] (e :: trace) =
      counted e.applies.toList ++ newVisitorPuts sys [] trace := by
  obtain ⟨hstep, htruthful⟩ := hstep
  cases e with
  | get => rfl
  | put i request applied =>
      cases applied with
      | false => rfl
      | true =>
          cases hstep with
          | put hphase =>
              have hi := h i
              rw [hphase] at hi
              obtain ⟨hlast, hattempt⟩ := hi
              rw [newVisitorPuts, List.append_nil, hlast, ← counts_eq_addsVisitor hattempt]
              cases hcounts : request.counts <;> simp [Event.applies, hcounts]
  | putAgain => exact htruthful.elim
  | reply => rfl
  | fail => rfl

/-- **The counted puts are the creations and the new-visitor puts.** -/
theorem newVisitorPuts_eq {trace : List (Event ι)} {s : State ι}
    (run : Run (TruthfulStep sys) sys.start trace s) :
    newVisitorPuts sys [] trace = counted s.versions := by
  refine run.invariant_trace (P := fun trace s =>
    newVisitorPuts sys [] trace = counted s.versions) rfl ?_
  rintro trace s e s' before ih hstep
  rw [newVisitorPuts_cons hstep (loaded_run (TruthfulStep.run_step before)), ih,
    hstep.1.versions_eq, counted, counted, counted, List.filter_append]

/-! ### The books of a run -/

/-- An invocation with an applied creation or new-visitor put. -/
def Counted (sys : System ι) (trace : List (Event ι)) (i : ι) : Prop :=
  ∃ request, ⟨i, request⟩ ∈ newVisitorPuts sys [] trace

/-- An invocation between its applied put and its return. -/
def State.Pending (s : State ι) (i : ι) : Prop :=
  ∃ attempt loaded request replies, s.phase i = .put attempt loaded request replies ∧ true ∈ replies

/-- What the stored count, the puts and the returned values have to do with each
other after a run. -/
structure Reconciled (sys : System ι) (trace : List (Event ι)) (s : State ι) : Prop where
  /-- The stored count never decreases. -/
  monotone : ∀ later earlier, trace = later ++ earlier →
    ∃ mid, Run (TruthfulStep sys) sys.start earlier mid ∧ Run (TruthfulStep sys) mid later s ∧
      sys.storedCount mid.versions ≤ sys.storedCount s.versions
  /-- It is the number of applied creations and applied new-visitor puts. -/
  stored : sys.storedCount s.versions = (newVisitorPuts sys [] trace).length
  puts_le : ∀ i, (s.own i).length ≤ 1
  puts_of_ok : ∀ i n, s.phase i = .done (.ok n) → (s.own i).length = 1
  puts_of_error : ∀ i error, s.phase i = .done (.error error) → s.own i = []
  /-- A returned value is the stored count right after the invocation's put. -/
  returned : ∀ i n, s.phase i = .done (.ok n) → ∃ later earlier request mid,
    trace = later ++ .put i request true :: earlier ∧
      Run (TruthfulStep sys) sys.start (.put i request true :: earlier) mid ∧
      Run (TruthfulStep sys) mid later s ∧ sys.storedCount mid.versions = n.toNat
  distinct : ∀ i j n, i ≠ j → Counted sys trace i → Counted sys trace j →
    s.phase i = .done (.ok n) → s.phase j ≠ .done (.ok n)
  /-- Once no applied put is pending, the counted invocations returned `1 .. count`. -/
  exhaustive : (∀ i, ¬ s.Pending i) → ∀ n : UInt64,
    (∃ i, Counted sys trace i ∧ s.phase i = .done (.ok n)) ↔
      1 ≤ n.toNat ∧ n.toNat ≤ sys.storedCount s.versions

section Books

variable {s : State ι} {i : ι} {n : UInt64}

/-- A counted invocation that has returned returned the count of its put. -/
theorem Accounted.count_of_ok (h : Accounted i (s.own i) (s.phase i))
    (hphase : s.phase i = .done (.ok n)) {v : Version ι} (hv : v ∈ s.versions)
    (hauthor : v.author = i) : v.request.item.count = n := by
  rw [hphase] at h
  obtain ⟨request, hown, hcount⟩ := h
  have hmem : v ∈ s.own i := List.mem_filter.mpr ⟨hv, decide_eq_true hauthor⟩
  rw [hown, List.mem_singleton] at hmem
  rw [hmem]
  exact hcount

/-- The author of a version has returned its count, or is pending. -/
theorem Accounted.ok_of_mem (h : Accounted i (s.own i) (s.phase i)) (hpending : ¬ s.Pending i)
    {v : Version ι} (hv : v ∈ s.versions) (hauthor : v.author = i) :
    s.phase i = .done (.ok v.request.item.count) := by
  have hmem : v ∈ s.own i := List.mem_filter.mpr ⟨hv, decide_eq_true hauthor⟩
  cases hphase : s.phase i with
  | get attempt =>
      rw [hphase] at h
      exact absurd (h ▸ hmem) List.not_mem_nil
  | put attempt loaded request replies =>
      rw [hphase] at h
      rcases h with ⟨-, hown⟩ | ⟨-, hown⟩ | ⟨rfl, -⟩
      · exact absurd (hown ▸ hmem) List.not_mem_nil
      · exact absurd (hown ▸ hmem) List.not_mem_nil
      · exact absurd ⟨attempt, loaded, request, _, hphase, List.mem_cons_self⟩ hpending
  | done outcome =>
      cases outcome with
      | ok n => rw [h.count_of_ok hphase hv hauthor]
      | error error =>
          rw [hphase] at h
          exact absurd (h ▸ hmem) List.not_mem_nil
      | panicked panic =>
          rw [hphase] at h
          exact absurd (h ▸ hmem) List.not_mem_nil

end Books

/-- A run passes right after every put of its trace. -/
theorem exists_state_after_put {trace : List (Event ι)} {s : State ι}
    (run : Run (TruthfulStep sys) sys.start trace s) {i : ι} {request : PutRequest}
    (hput : .put i request true ∈ trace) :
    ∃ later earlier mid, trace = later ++ .put i request true :: earlier ∧
      Run (TruthfulStep sys) sys.start (.put i request true :: earlier) mid ∧
      Run (TruthfulStep sys) mid later s ∧
      sys.storedCount mid.versions = request.item.count.toNat := by
  obtain ⟨later, earlier, rfl⟩ := List.append_of_mem hput
  obtain ⟨mid, hfirst, hsecond⟩ := run.split
  refine ⟨later, earlier, mid, rfl, hfirst, hsecond, ?_⟩
  obtain ⟨before, -, hstep, -⟩ := hfirst.of_cons
  cases hstep with
  | put => rfl

section Run

variable {trace : List (Event ι)} {s : State ι} (hnone : sys.initial = none)
  (run : Run (TruthfulStep sys) sys.start trace s) (hbelow : CountsBelow s.versions)

include hnone run hbelow

/-- The stored count never decreases along a run. -/
theorem storedCount_le_of_append {later earlier : List (Event ι)}
    (htrace : trace = later ++ earlier) :
    ∃ mid, Run (TruthfulStep sys) sys.start earlier mid ∧ Run (TruthfulStep sys) mid later s ∧
      sys.storedCount mid.versions ≤ sys.storedCount s.versions := by
  subst htrace
  obtain ⟨mid, hfirst, hsecond⟩ := run.split
  have hsuffix := versions_suffix_run (TruthfulStep.run_step hsecond)
  have hearlier : CountsBelow mid.versions := fun v hv => hbelow v (hsuffix.subset hv)
  refine ⟨mid, hfirst, hsecond, ?_⟩
  rw [(Coherent.run (TruthfulStep.run_step run)).lineage.storedCount_eq hnone hbelow,
    (Coherent.run (TruthfulStep.run_step hfirst)).lineage.storedCount_eq hnone hearlier]
  exact (hsuffix.sublist.filter _).length_le

/-- Counted invocations return different counts. -/
theorem eq_of_counted {i j : ι} {n : UInt64} (hi : Counted sys trace i) (hj : Counted sys trace j)
    (hphase : s.phase i = .done (.ok n)) (hphase' : s.phase j = .done (.ok n)) : i = j := by
  obtain ⟨request, hi⟩ := hi
  obtain ⟨request', hj⟩ := hj
  rw [newVisitorPuts_eq run] at hi hj
  have hcount := (accounted_run run i).count_of_ok hphase (List.mem_of_mem_filter hi) rfl
  rw [← (accounted_run run j).count_of_ok hphase' (List.mem_of_mem_filter hj) rfl] at hcount
  have hsame : (⟨i, request⟩ : Version ι) = ⟨j, request'⟩ :=
    (Coherent.run (TruthfulStep.run_step run)).lineage.eq_of_count_eq hnone hbelow hi hj hcount
  exact congrArg Version.author hsame

/-- Once no applied put is pending, the counted invocations returned `1 .. count`. -/
theorem exists_counted_ok_iff (hpending : ∀ i, ¬ s.Pending i) (n : UInt64) :
    (∃ i, Counted sys trace i ∧ s.phase i = .done (.ok n)) ↔
      1 ≤ n.toNat ∧ n.toNat ≤ sys.storedCount s.versions := by
  rw [← (Coherent.run (TruthfulStep.run_step run)).lineage.exists_counted_iff hnone hbelow]
  constructor
  · rintro ⟨i, ⟨request, hi⟩, hphase⟩
    rw [newVisitorPuts_eq run] at hi
    exact ⟨_, hi, congrArg UInt64.toNat
      ((accounted_run run i).count_of_ok hphase (List.mem_of_mem_filter hi) rfl)⟩
  · rintro ⟨v, hv, hcount⟩
    refine ⟨v.author, ⟨v.request, by rwa [newVisitorPuts_eq run]⟩, ?_⟩
    rw [(accounted_run run v.author).ok_of_mem (hpending _) (List.mem_of_mem_filter hv) rfl,
      UInt64.toNat_inj.mp hcount]

end Run

/-- **No increment is lost or duplicated.**  From a table without the item, with
puts acknowledged truthfully and counts below `2 ^ 64 - 1`, the books of every
run are reconciled: creations and new-visitor puts count, refreshes do not. -/
theorem increments_reconciled {sys : System ι} (hnone : sys.initial = none)
    {trace : List (Event ι)} {s : State ι} (run : Run (TruthfulStep sys) sys.start trace s)
    (hbelow : ∀ v ∈ s.versions, v.request.item.count.toNat < 2 ^ 64 - 1) :
    Reconciled sys trace s := by
  have haccounted := accounted_run run
  constructor
  · exact fun later earlier htrace => storedCount_le_of_append hnone run hbelow htrace
  · rw [newVisitorPuts_eq run]
    exact (Coherent.run (TruthfulStep.run_step run)).lineage.storedCount_eq hnone hbelow
  · exact fun i => (haccounted i).length_le
  · intro i n hphase
    have hi := haccounted i
    rw [hphase] at hi
    obtain ⟨request, hown, -⟩ := hi
    rw [hown, List.length_singleton]
  · intro i error hphase
    have hi := haccounted i
    rw [hphase] at hi
    exact hi
  · intro i n hphase
    have hi := announced_run (TruthfulStep.run_step run) i
    rw [hphase] at hi
    obtain ⟨request, hput, rfl⟩ := hi
    obtain ⟨later, earlier, mid, hsplit⟩ := exists_state_after_put run hput
    exact ⟨later, earlier, request, mid, hsplit⟩
  · exact fun i j n hij hi hj hphase hphase' =>
      hij (eq_of_counted hnone run hbelow hi hj hphase hphase')
  · exact exists_counted_ok_iff hnone run hbelow

/-- Two visitors, of which the second loses the race for the creation, and the first
one again. -/
def twoVisitors : System (Fin 3) where
  calls i := ⟨⟨if i.val = 1 then 8 else 7, 1_690_000_100_000_000_000⟩, 1_690_000_100_000_000_000⟩
  initial := none

/-- The first visitor gets the count one, the second one two, and a refresh keeps it. -/
theorem increments_reconciled_twoVisitors :
    ∃ trace s, Run (TruthfulStep twoVisitors) twoVisitors.start trace s ∧
      Reconciled twoVisitors trace s ∧ s.versions.map Version.author = [2, 1, 0] ∧
      (newVisitorPuts twoVisitors [] trace).map Version.author = [1, 0] ∧
      twoVisitors.storedCount s.versions = 2 := by
  have run : Run (TruthfulStep twoVisitors) twoVisitors.start
      [.reply 2 true,
        .put 2 ⟨some 2, ⟨2, ⟨[⟨7, 100⟩, ⟨8, 100⟩]⟩⟩⟩ true,
        .get 2 (some ⟨2, ⟨[⟨7, 100⟩, ⟨8, 100⟩]⟩⟩),
        .reply 1 true,
        .put 1 ⟨some 1, ⟨2, ⟨[⟨7, 100⟩, ⟨8, 100⟩]⟩⟩⟩ true,
        .get 1 (some ⟨1, ⟨[⟨7, 100⟩]⟩⟩),
        .reply 1 false,
        .reply 0 true,
        .put 1 ⟨none, ⟨1, ⟨[⟨8, 100⟩]⟩⟩⟩ false,
        .put 0 ⟨none, ⟨1, ⟨[⟨7, 100⟩]⟩⟩⟩ true,
        .get 1 none,
        .get 0 none] _ :=
    run_of_exec_guarded (fun _ _ _ => step_sound) rfl
  exact ⟨_, _, run, increments_reconciled rfl run (by decide), rfl, rfl, rfl⟩

end VisitorCounter

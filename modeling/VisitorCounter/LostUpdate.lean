import VisitorCounter.Invariant

/-!
# Refreshes can be overwritten

The optimistic lock compares the count, and a refresh does not change it.  A put
that was prepared before a refresh is therefore applied after it, and writes the
list without the refresh.  An update is safe from that as long as no applied put
finds a recent entry on the item that its own get had not returned.

## Main Definitions

* `ListsFit`: no list grows beyond `maxRecentVisitors`
* `Undisturbed`: the condition under which an applied put overwrites no update
* `KeepsVisits`: visits that were put stay on the list while they are recent

## Main Results

* `refresh_overwritten`: a run that loses a refresh
* `keepsVisits_step`: an undisturbed put keeps the visits
-/

namespace VisitorCounter

open Runs RecencyList

/-- The attempt on an item writes every entry that its pruning retains. -/
def Invocation.unculled (inv : Invocation) (item : StoredItem) : Bool :=
  match inv.retained item with
  | .ok retained => decide (retained.length ≤ maxRecentVisitors)
  | .error _ => true

/-- An item has a visitor's entry that is not earlier than the second of `t`. -/
def StoredItem.HasVisit (item : StoredItem) (tag : UInt32) (t : ℤ) : Prop :=
  ∃ e ∈ item.recent, e.tag = tag ∧ floorToSeconds t ≤ e.time

instance (item : StoredItem) (tag : UInt32) (t : ℤ) : Decidable (item.HasVisit tag t) :=
  inferInstanceAs (Decidable (∃ e ∈ item.recent, e.tag = tag ∧ floorToSeconds t ≤ e.time))

/-- A put of `inv`, prepared from `loaded`, overwrites an update of `current`: it
finds a recent entry there that was not loaded, other than an entry of its own
visitor that is no later than the time it records. -/
def Invocation.Overwrites (inv : Invocation) (loaded current : Option StoredItem) : Prop :=
  ∃ e ∈ entriesOf current, Recent inv.now e.time ∧ e ∉ entriesOf loaded ∧
    ¬ (e.tag = inv.visitor.tag ∧ e.time ≤ inv.recordedAt loaded)

instance (inv : Invocation) (loaded current : Option StoredItem) :
    Decidable (inv.Overwrites loaded current) :=
  inferInstanceAs (Decidable (∃ e ∈ entriesOf current, Recent inv.now e.time ∧
    e ∉ entriesOf loaded ∧ ¬ (e.tag = inv.visitor.tag ∧ e.time ≤ inv.recordedAt loaded)))

/-! ### What one put keeps -/

section Put

variable {inv : Invocation} {item current : StoredItem} {request : PutRequest} {tag : UInt32}
  {t : ℤ}

theorem Refreshes.length_retained_le (h : Refreshes inv item request)
    (hfits : inv.unculled item = true) :
    (recentOnly inv.now (refreshed inv.visitor.tag inv.now
      (item.recent.map Visitor.ofStored))).length ≤ maxRecentVisitors := by
  unfold Invocation.unculled at hfits
  rw [h.retained] at hfits
  exact of_decide_eq_true hfits

theorem Pushes.length_retained_le (h : Pushes inv item request) (hfits : inv.unculled item = true) :
    (recentOnly inv.now (item.recent.map Visitor.ofStored ++ [inv.visitor])).length ≤
      maxRecentVisitors := by
  unfold Invocation.unculled at hfits
  rw [h.retained] at hfits
  exact of_decide_eq_true hfits

/-- An attempt that does not cull writes an entry of its own visitor. -/
theorem exists_own_mem (hattempt : inv.attempt (some item) = .ok request)
    (hfits : inv.unculled item = true) (hrecent : Recent inv.now (inv.recordedAt (some item))) :
    ∃ w ∈ request.item.recent, w.tag = inv.visitor.tag ∧
      w.time = floorToSeconds (inv.recordedAt (some item)) := by
  rcases attempt_some_cases hattempt with hrefresh | hpush
  · rw [hrefresh.recordedAt_eq]
    exact hrefresh.exists_own_mem (hrefresh.length_retained_le hfits)
  · rw [hpush.recordedAt_eq] at hrecent ⊢
    exact hpush.exists_own_mem (hpush.length_retained_le hfits) hrecent

/-- It writes every recent entry that was loaded, or refreshes it. -/
theorem exists_loaded_mem (hattempt : inv.attempt (some item) = .ok request)
    (hfits : inv.unculled item = true) {e : StoredVisitor} (he : e ∈ item.recent)
    (hrecent : Recent inv.now e.time) :
    ∃ w ∈ request.item.recent, w.tag = e.tag ∧
      (w.time = e.time ∨ w.time = floorToSeconds inv.now) := by
  rcases attempt_some_cases hattempt with hrefresh | hpush
  · exact hrefresh.exists_kept_mem (hrefresh.length_retained_le hfits) he hrecent
  · exact ⟨e, hpush.mem_of_mem (hpush.length_retained_le hfits) he hrecent, rfl, Or.inl rfl⟩

/-- An attempt records a visit at its `now` or when it was seen. -/
theorem recordedAt_cases (hattempt : inv.attempt (some item) = .ok request) :
    inv.recordedAt (some item) = inv.now ∨ inv.recordedAt (some item) = inv.visitor.lastSeen := by
  rcases attempt_some_cases hattempt with hrefresh | hpush
  · exact Or.inl hrefresh.recordedAt_eq
  · exact Or.inr hpush.recordedAt_eq

/-- The put of a visit writes the visit. -/
theorem hasVisit_of_attempt_some (hattempt : inv.attempt (some item) = .ok request)
    (hfits : inv.unculled item = true) (hseen : inv.visitor.lastSeen = inv.now) :
    request.item.HasVisit inv.visitor.tag inv.now := by
  have hat : inv.recordedAt (some item) = inv.now :=
    (recordedAt_cases hattempt).elim id fun h => h.trans hseen
  obtain ⟨w, hw, hwtag, hwtime⟩ := exists_own_mem hattempt hfits (by simp [Recent, hat])
  exact ⟨w, hw, hwtag, by rw [hwtime, hat]⟩

theorem hasVisit_of_attempt_none (hattempt : inv.attempt none = .ok request)
    (hseen : inv.visitor.lastSeen = inv.now) :
    request.item.HasVisit inv.visitor.tag inv.now := by
  obtain ⟨hrep, rfl⟩ := attempt_none_eq_ok_iff.mp hattempt
  exact ⟨inv.visitor.stored, List.mem_cons_self, rfl, by rw [Visitor.stored_time hrep, hseen]⟩

/-- **A put that overwrites no update keeps a visit** that is still recent. -/
theorem hasVisit_of_not_overwrites (hattempt : inv.attempt (some item) = .ok request)
    (hfits : inv.unculled item = true) (hkeeps : ¬ inv.Overwrites (some item) (some current))
    (hfrom : t ≤ inv.now) (huntil : inv.now ≤ t + 7_199_000_000_000)
    (h : current.HasVisit tag t) : request.item.HasVisit tag t := by
  obtain ⟨e, he, rfl, htime⟩ := h
  have hfloor := lt_floorToSeconds_add t
  have hrecent : Recent inv.now e.time := by
    unfold Recent
    omega
  have hmono := floorToSeconds_mono hfrom
  by_cases hloaded : e ∈ item.recent
  · -- The entry was loaded: it is written, or it is the one that was refreshed.
    obtain ⟨w, hw, hwtag, hwtime | hwtime⟩ := exists_loaded_mem hattempt hfits hloaded hrecent
    · exact ⟨w, hw, hwtag, by rwa [hwtime]⟩
    · exact ⟨w, hw, hwtag, by rwa [hwtime]⟩
  · -- Otherwise it is an earlier entry of the visitor whose visit is put.
    obtain ⟨hown, hlate⟩ : e.tag = inv.visitor.tag ∧ e.time ≤ inv.recordedAt (some item) := by
      by_contra hother
      exact hkeeps ⟨e, he, hrecent, hloaded, hother⟩
    have hvisit : Recent inv.now (inv.recordedAt (some item)) := by
      unfold Recent at hrecent ⊢
      omega
    obtain ⟨w, hw, hwtag, hwtime⟩ := exists_own_mem hattempt hfits hvisit
    refine ⟨w, hw, hwtag.trans hown.symm, ?_⟩
    rw [hwtime]
    exact htime.trans ((floorToSeconds_time e).symm.le.trans (floorToSeconds_mono hlate))

end Put

/-! ### Runs -/

variable {ι : Type} {sys : System ι}

/-- An invocation that waits for its put has not culled the list. -/
def Phase.unculled (inv : Invocation) : Phase → Bool
  | .put _ (some item) _ _ => inv.unculled item
  | _ => true

/-- No attempt culls its list. -/
def ListsFit (sys : System ι) (s : State ι) : Event ι → Prop
  | .put i _ _ => (s.phase i).unculled (sys.calls i) = true
  | _ => True

instance decidableListsFit (sys : System ι) (s : State ι) :
    (e : Event ι) → Decidable (ListsFit sys s e)
  | .get _ _ => isTrue trivial
  | .put i _ _ => inferInstanceAs (Decidable ((s.phase i).unculled (sys.calls i) = true))
  | .putAgain _ _ _ => isTrue trivial
  | .reply _ _ => isTrue trivial
  | .fail _ _ => isTrue trivial

/-- The put that an invocation waits for overwrites an update of the current item. -/
def Phase.Overwrites (inv : Invocation) (current : Option StoredItem) : Phase → Prop
  | .put _ loaded _ _ => inv.Overwrites loaded current
  | _ => False

instance decidablePhaseOverwrites (inv : Invocation) (current : Option StoredItem) :
    (phase : Phase) → Decidable (phase.Overwrites inv current)
  | .put _ loaded _ _ => inferInstanceAs (Decidable (inv.Overwrites loaded current))
  | .get _ => isFalse id
  | .done _ => isFalse id

/-- No applied put overwrites an update. -/
def Undisturbed (sys : System ι) (s : State ι) : Event ι → Prop
  | .put i _ true => ¬ (s.phase i).Overwrites (sys.calls i) (sys.current s.versions)
  | _ => True

instance decidableUndisturbed (sys : System ι) (s : State ι) :
    (e : Event ι) → Decidable (Undisturbed sys s e)
  | .put i _ true =>
      inferInstanceAs (Decidable (¬ (s.phase i).Overwrites (sys.calls i) (sys.current s.versions)))
  | .put _ _ false => isTrue trivial
  | .get _ _ => isTrue trivial
  | .putAgain _ _ _ => isTrue trivial
  | .reply _ _ => isTrue trivial
  | .fail _ _ => isTrue trivial

/-- Every visit that was put, of a visitor seen at `now`, stays on the list for as
long as the later versions are by invocations within the window of the visit.  From the
first writer past the window on nothing is said: it drops the visit by design. -/
def KeepsVisits (sys : System ι) (versions : List (Version ι)) : Prop :=
  ∀ later v older, later ++ v :: older <:+ versions →
    (sys.visitorOf v).lastSeen = (sys.calls v.author).now →
    (∀ w ∈ later, (sys.calls v.author).now ≤ (sys.calls w.author).now ∧
      (sys.calls w.author).now ≤ (sys.calls v.author).now + 7_199_000_000_000) →
    ∃ item, sys.current (later ++ v :: older) = some item ∧
      item.HasVisit (sys.visitorOf v).tag (sys.calls v.author).now

/-- An applied put that overwrites no update keeps the visits. -/
theorem KeepsVisits.put {versions : List (Version ι)} {v : Version ι}
    {loaded : Option StoredItem} (h : KeepsVisits sys versions)
    (hattempt : (sys.calls v.author).attempt loaded = .ok v.request)
    (hholds : v.request.holds (sys.current versions) = true)
    (hfits : ∀ item, loaded = some item → (sys.calls v.author).unculled item = true)
    (hkeeps : ¬ (sys.calls v.author).Overwrites loaded (sys.current versions)) :
    KeepsVisits sys (v :: versions) := by
  intro later visit older hsuffix hseen hwindow
  rcases List.suffix_cons_iff.mp hsuffix with hsame | hsuffix
  · -- The new version is the last one.
    cases later with
    | nil =>
        obtain ⟨rfl, rfl⟩ := List.cons.inj hsame
        refine ⟨visit.request.item, rfl, ?_⟩
        cases loaded with
        | none => exact hasVisit_of_attempt_none hattempt hseen
        | some item => exact hasVisit_of_attempt_some hattempt (hfits item rfl) hseen
    | cons w later =>
        rw [List.cons_append] at hsame
        obtain ⟨rfl, rfl⟩ := List.cons.inj hsame
        obtain ⟨⟨hfrom, huntil⟩, hlater⟩ := List.forall_mem_cons.mp hwindow
        obtain ⟨cur, hcur, hvisit⟩ := h later visit older List.suffix_rfl hseen hlater
        refine ⟨w.request.item, rfl, ?_⟩
        cases loaded with
        | none =>
            obtain ⟨-, hrequest⟩ := attempt_none_eq_ok_iff.mp hattempt
            rw [hrequest, PutRequest.holds_none_left, hcur] at hholds
            cases hholds
        | some item =>
            rw [hcur] at hkeeps
            exact hasVisit_of_not_overwrites hattempt (hfits item rfl) hkeeps hfrom huntil hvisit
  · exact h later visit older hsuffix hseen hwindow

variable [DecidableEq ι]

/-- A step of a table with consistent gets, on which no list is culled. -/
def SharedStep (sys : System ι) (s : State ι) (e : Event ι) (s' : State ι) : Prop :=
  Step sys s e s' ∧ Consistent sys s e ∧ ListsFit sys s e

/-- Such a step in which no applied put overwrites an update. -/
def UndisturbedStep (sys : System ι) (s : State ι) (e : Event ι) (s' : State ι) : Prop :=
  Step sys s e s' ∧ Consistent sys s e ∧ ListsFit sys s e ∧ Undisturbed sys s e

/-- **A step keeps the visits** when its put overwrites no update. -/
theorem keepsVisits_step {s s' : State ι} {e : Event ι} (hcoherent : Coherent sys s)
    (hstep : UndisturbedStep sys s e s') (h : KeepsVisits sys s.versions) :
    KeepsVisits sys s'.versions := by
  obtain ⟨hstep, hconsistent, hfits, hundisturbed⟩ := hstep
  cases hstep with
  | get => rwa [State.goto_versions, State.send_versions]
  | @put i attempt loaded request replies applied hphase happlied =>
      cases applied with
      | false => exact h
      | true =>
          have hprep := hcoherent.waiting i _ _ _ _ hphase
          simp only [ListsFit, hphase] at hfits
          simp only [Undisturbed, hphase] at hundisturbed
          refine h.put hprep.attempt happlied.symm ?_ hundisturbed
          rintro item rfl
          exact hfits
  | putAgain => exact hconsistent.elim
  | reply => exact h
  | fail => exact h

/-- **Visits are kept while no applied put overwrites an update.**  In every run
with consistent gets and lists that fit, whose applied puts find no recent entry
that was not loaded, every visit stays on the list while it is recent. -/
theorem visits_kept_of_undisturbed {sys : System ι} {trace : List (Event ι)} {s : State ι}
    (run : Run (UndisturbedStep sys) sys.start trace s) : KeepsVisits sys s.versions := by
  refine run.invariant_trace (P := fun _ s => KeepsVisits sys s.versions) ?_ ?_
  · intro later v older hsuffix
    exact absurd (List.suffix_nil.mp hsuffix)
      (List.append_ne_nil_of_right_ne_nil later (List.cons_ne_nil v older))
  · intro trace s e s' hbefore ih hstep
    exact keepsVisits_step (Coherent.run (hbefore.mono fun _ _ _ h => h.1)) hstep ih

/-- A visitor that comes back a hundred seconds after its first visit, while
another one visits for the first time. -/
def racing : System (Fin 3) where
  calls i :=
    if i.val = 0 then ⟨⟨1, 1_690_000_000_000_000_000⟩, 1_690_000_000_000_000_000⟩
    else ⟨⟨UInt32.ofNat i, 1_690_000_100_000_000_000⟩, 1_690_000_100_000_000_000⟩
  initial := none

/-- **A refresh is overwritten.**  Visitor `2` gets the item, visitor `1` refreshes
its entry at second `100` and returns, and the put of visitor `2` is applied: the
list it writes has visitor `1` at second `0`. -/
theorem refresh_overwritten :
    ∃ earlier mid later s, Run (SharedStep racing) racing.start earlier mid ∧
      mid.phase 1 = .done (.ok 1) ∧ Run (SharedStep racing) mid later s ∧
      ¬ KeepsVisits racing s.versions := by
  have first : Run (SharedStep racing) racing.start
      [.reply 1 true, .put 1 ⟨some 1, ⟨1, ⟨[⟨1, 100⟩]⟩⟩⟩ true, .get 1 (some ⟨1, ⟨[⟨1, 0⟩]⟩⟩),
        .get 2 (some ⟨1, ⟨[⟨1, 0⟩]⟩⟩),
        .reply 0 true, .put 0 ⟨none, ⟨1, ⟨[⟨1, 0⟩]⟩⟩⟩ true, .get 0 none] _ :=
    run_of_exec_guarded (fun _ _ _ => step_sound) rfl
  refine ⟨_, _, [.put 2 ⟨some 1, ⟨2, ⟨[⟨1, 0⟩, ⟨2, 100⟩]⟩⟩⟩ true], _, first, rfl,
    run_of_exec_guarded (fun _ _ _ => step_sound) rfl, ?_⟩
  intro h
  obtain ⟨item, hcur, hvisit⟩ := h [⟨2, ⟨some 1, ⟨2, ⟨[⟨1, 0⟩, ⟨2, 100⟩]⟩⟩⟩⟩]
    ⟨1, ⟨some 1, ⟨1, ⟨[⟨1, 100⟩]⟩⟩⟩⟩ [⟨0, ⟨none, ⟨1, ⟨[⟨1, 0⟩]⟩⟩⟩⟩] List.suffix_rfl rfl (by decide)
  obtain rfl := Option.some.inj hcur
  revert hvisit
  decide

/-- In the other order the refresh stays. -/
theorem visits_kept_of_undisturbed_racing :
    (⟨2, ⟨[⟨1, 100⟩, ⟨2, 100⟩]⟩⟩ : StoredItem).HasVisit 1 1_690_000_100_000_000_000 := by
  have run : Run (UndisturbedStep racing) racing.start
      [.put 2 ⟨some 1, ⟨2, ⟨[⟨1, 100⟩, ⟨2, 100⟩]⟩⟩⟩ true, .get 2 (some ⟨1, ⟨[⟨1, 100⟩]⟩⟩),
        .reply 1 true, .put 1 ⟨some 1, ⟨1, ⟨[⟨1, 100⟩]⟩⟩⟩ true, .get 1 (some ⟨1, ⟨[⟨1, 0⟩]⟩⟩),
        .reply 0 true, .put 0 ⟨none, ⟨1, ⟨[⟨1, 0⟩]⟩⟩⟩ true, .get 0 none] _ :=
    run_of_exec_guarded (fun _ _ _ => step_sound) rfl
  obtain ⟨item, hcur, hvisit⟩ := visits_kept_of_undisturbed run
    [⟨2, ⟨some 1, ⟨2, ⟨[⟨1, 100⟩, ⟨2, 100⟩]⟩⟩⟩⟩] ⟨1, ⟨some 1, ⟨1, ⟨[⟨1, 100⟩]⟩⟩⟩⟩
    [⟨0, ⟨none, ⟨1, ⟨[⟨1, 0⟩]⟩⟩⟩⟩] List.suffix_rfl rfl (by decide)
  obtain rfl := Option.some.inj hcur
  exact hvisit

end VisitorCounter

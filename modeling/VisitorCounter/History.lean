import VisitorCounter.Interleaving

/-!
# The history of the item

The versions of the item in a run form a history: each was prepared by an
attempt on some earlier version, or on the absence of the item, and its
condition held on the version before it.  What is true of every history is true
of every run, whatever the table does with gets, puts and replies.

## Main Definitions

* `Prepared`: a put that an attempt made of an earlier version
* `Lineage`: the histories
* `Coherent`: the history is a lineage, and every put on its way was prepared

## Main Results

* `Coherent.run`: every state that a run reaches is coherent
* `versions_suffix_run`: a history only grows
* `Prepared.cases`: what a put can be that was prepared from some version
-/

namespace VisitorCounter

open Runs

variable {ι : Type} {sys : System ι}

/-- A put that its author prepared from `loaded`, which a get could return. -/
structure Prepared (sys : System ι) (versions : List (Version ι)) (v : Version ι)
    (loaded : Option StoredItem) : Prop where
  serves : sys.Serves versions loaded
  attempt : (sys.calls v.author).attempt loaded = .ok v.request

/-- The histories of the item, newest version first. -/
inductive Lineage (sys : System ι) : List (Version ι) → Prop
  | nil : Lineage sys []
  | put {versions : List (Version ι)} {v : Version ι} {loaded : Option StoredItem} :
      Lineage sys versions → Prepared sys versions v loaded →
      v.request.holds (sys.current versions) = true → Lineage sys (v :: versions)

/-- What a get could return, it can return later. -/
theorem System.Serves.mono {versions later : List (Version ι)} {loaded : Option StoredItem}
    (h : sys.Serves versions loaded) (hsuffix : versions <:+ later) : sys.Serves later loaded := by
  rcases h with rfl | ⟨item, hitem, rfl⟩
  · exact Or.inl rfl
  · obtain ⟨newer, rfl⟩ := hsuffix
    refine Or.inr ⟨item, ?_, rfl⟩
    rw [System.items, List.map_append, List.append_assoc]
    exact List.mem_append_right _ hitem

/-- A put stays prepared when other puts arrive at the table. -/
theorem Prepared.mono {versions later : List (Version ι)} {v : Version ι}
    {loaded : Option StoredItem} (h : Prepared sys versions v loaded)
    (hsuffix : versions <:+ later) : Prepared sys later v loaded :=
  ⟨h.serves.mono hsuffix, h.attempt⟩

/-- **What a prepared put can be**: a creation, or a refresh or a push made of a
version of the item. -/
theorem Prepared.cases {versions : List (Version ι)} {v : Version ι}
    {loaded : Option StoredItem} (h : Prepared sys versions v loaded) :
    (loaded = none ∧ Representable (sys.calls v.author).visitor.lastSeen ∧
        v.request = ⟨none, ⟨1, ⟨[(sys.calls v.author).visitor.stored]⟩⟩⟩) ∨
      ∃ item ∈ sys.items versions, loaded = some item ∧
        (Refreshes (sys.calls v.author) item v.request ∨
          Pushes (sys.calls v.author) item v.request) := by
  rcases h.serves with rfl | ⟨item, hitem, rfl⟩
  · exact Or.inl ⟨rfl, attempt_none_eq_ok_iff.mp h.attempt⟩
  · exact Or.inr ⟨item, hitem, rfl, attempt_some_cases h.attempt⟩

/-- The history is a lineage, and every put that was sent was prepared from it. -/
structure Coherent (sys : System ι) (s : State ι) : Prop where
  lineage : Lineage sys s.versions
  sent : ∀ v ∈ s.sent, ∃ loaded, Prepared sys s.versions v loaded
  waiting : ∀ i attempt loaded request replies,
    s.phase i = .put attempt loaded request replies → Prepared sys s.versions ⟨i, request⟩ loaded

theorem Coherent.start (sys : System ι) : Coherent sys sys.start where
  lineage := .nil
  sent _ hv := nomatch hv
  waiting _ attempt loaded request replies h :=
    absurd h (loop_ne_put 0 attempt loaded request replies)

/-- In a coherent state every put that is on its way was prepared. -/
theorem Coherent.exists_prepared {s : State ι} (h : Coherent sys s) {v : Version ι}
    (hv : s.OnItsWay v) : ∃ loaded, Prepared sys s.versions v loaded := by
  rcases hv with hsent | ⟨attempt, loaded, replies, hphase⟩
  · exact h.sent v hsent
  · exact ⟨loaded, h.waiting _ _ _ _ _ hphase⟩

variable [DecidableEq ι]

/-- A step keeps the versions there are. -/
theorem Step.versions_suffix {s s' : State ι} {e : Event ι} (h : Step sys s e s') :
    s.versions <:+ s'.versions := by
  rw [h.versions_eq]
  exact List.suffix_append _ _

/-- Every step keeps a state coherent. -/
theorem Coherent.step {s s' : State ι} {e : Event ι} (h : Coherent sys s)
    (hstep : Step sys s e s') : Coherent sys s' := by
  have hsuffix := hstep.versions_suffix
  refine ⟨?_, ?_, ?_⟩
  · rw [hstep.versions_eq]
    cases hv : e.applies with
    | none => exact h.lineage
    | some v =>
        obtain ⟨hway, hholds⟩ := hstep.of_applies hv
        obtain ⟨loaded, hprep⟩ := h.exists_prepared hway
        exact h.lineage.put hprep hholds
  · -- A second delivery may come long after its author moved on, so `sent` remembers it.
    intro v hv
    rcases hstep.sent_cases hv with hold | ⟨loaded, hserves, hattempt⟩
    · obtain ⟨loaded, hprep⟩ := h.sent v hold
      exact ⟨loaded, hprep.mono hsuffix⟩
    · exact ⟨loaded, Prepared.mono ⟨hserves, hattempt⟩ hsuffix⟩
  · intro i attempt loaded request replies hwait
    rcases hstep.waiting_cases hwait with ⟨before, hold⟩ | ⟨hserves, hattempt⟩
    · exact (h.waiting i _ _ _ _ hold).mono hsuffix
    · exact Prepared.mono ⟨hserves, hattempt⟩ hsuffix

/-- **Every state that a run reaches is coherent.** -/
theorem Coherent.run {trace : List (Event ι)} {s : State ι}
    (run : Run (Step sys) sys.start trace s) : Coherent sys s :=
  run.invariant (Coherent.start sys) fun _ _ _ h hstep => h.step hstep

/-- Later states have the versions of earlier ones, and newer versions before them. -/
theorem versions_suffix_run {s₁ s₂ : State ι} {trace : List (Event ι)}
    (run : Run (Step sys) s₁ trace s₂) : s₁.versions <:+ s₂.versions :=
  run.invariant (P := fun s => s₁.versions <:+ s.versions) List.suffix_rfl
    fun _ _ _ h hstep => h.trans hstep.versions_suffix

end VisitorCounter

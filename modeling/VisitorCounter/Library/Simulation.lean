import VisitorCounter.Library.Runs

/-!
# Simulations between transition systems

A system simulates another one along a relation of their states when it answers
every step by a step of its own, or by standing still.  The simulating system may
have been told in advance what the other one finds out only later: what holds at
the end of a run, and cannot have become true on the way, held all along.

## Main Definitions

* `Mirrors shows`: two traces, of which the second has what shows of the first
* `Simulates step step' shows t₀ R`: `step'`, started in `t₀`, answers the steps of `step`

## Main Results

* `Run.of_last`: what holds at the end and is never established holds all along
* `Simulates.run`: every run is answered by a run that mirrors it
-/

namespace Runs

variable {σ ε τ δ : Type*}

/-- **The rule of foresight.**  A property that no step establishes, and that holds
at the end of a run, holds after each of its steps. -/
theorem Run.of_last {step : σ → ε → σ → Prop} {Q : σ → Prop}
    (back : ∀ s e s', step s e s' → Q s' → Q s) {s₀ s : σ} {trace : List ε}
    (run : Run step s₀ trace s) (last : Q s) :
    Run (fun s e s' => step s e s' ∧ Q s') s₀ trace s := by
  induction run with
  | nil => exact .nil
  | cons _ hstep ih => exact .cons (ih (back _ _ _ hstep last)) ⟨hstep, last⟩

/-- The second trace has, in order, the events that the first one shows: an event that
shows as none is left out, one that shows has exactly one counterpart. -/
inductive Mirrors (shows : ε → δ → Prop) : List ε → List δ → Prop
  | nil : Mirrors shows [] []
  | shown {e : ε} {e' : δ} {trace : List ε} {trace' : List δ} :
      shows e e' → Mirrors shows trace trace' → Mirrors shows (e :: trace) (e' :: trace')
  | hidden {e : ε} {trace : List ε} {trace' : List δ} :
      (∀ e', ¬ shows e e') → Mirrors shows trace trace' → Mirrors shows (e :: trace) trace'

/-- What a mirrored trace has, the first one shows. -/
theorem Mirrors.exists_shown {shows : ε → δ → Prop} {trace : List ε} {trace' : List δ}
    (h : Mirrors shows trace trace') {e' : δ} (he' : e' ∈ trace') : ∃ e ∈ trace, shows e e' := by
  induction h with
  | nil => cases he'
  | @shown e f trace trace' hshows _ ih =>
      rcases List.mem_cons.mp he' with rfl | hmem
      · exact ⟨e, List.mem_cons_self, hshows⟩
      · obtain ⟨e, he, hshows⟩ := ih hmem
        exact ⟨e, List.mem_cons_of_mem _ he, hshows⟩
  | hidden _ _ ih =>
      obtain ⟨e, he, hshows⟩ := ih he'
      exact ⟨e, List.mem_cons_of_mem _ he, hshows⟩

/-- What shows is counted the same in both traces. -/
theorem Mirrors.countP_eq {shows : ε → δ → Prop} {trace : List ε} {trace' : List δ} {p : ε → Bool}
    {p' : δ → Bool} (h : Mirrors shows trace trace') (hshown : ∀ e e', shows e e' → p e = p' e')
    (hhidden : ∀ e, (∀ e', ¬ shows e e') → p e = false) : trace.countP p = trace'.countP p' := by
  induction h with
  | nil => rfl
  | shown hshows _ ih => rw [List.countP_cons, List.countP_cons, ih, hshown _ _ hshows]
  | hidden hnone _ ih =>
      rw [List.countP_cons, ih, hhidden _ hnone]
      exact Nat.add_zero _

/-- Every step between related states is answered by a step that it shows as, or, when
it does not show, by standing still.  The answering system is in a state that it has
reached. -/
def Simulates (step : σ → ε → σ → Prop) (step' : τ → δ → τ → Prop) (shows : ε → δ → Prop) (t₀ : τ)
    (R : σ → τ → Prop) : Prop :=
  ∀ s e s' t trace', Run step' t₀ trace' t → R s t → step s e s' →
    ((∀ e', ¬ shows e e') ∧ R s' t) ∨ ∃ e' t', shows e e' ∧ step' t e' t' ∧ R s' t'

/-- **The simulation rule**: every run is answered by a run that mirrors it. -/
theorem Simulates.run {step : σ → ε → σ → Prop} {step' : τ → δ → τ → Prop} {shows : ε → δ → Prop}
    {s₀ s : σ} {t₀ : τ} {R : σ → τ → Prop} (sim : Simulates step step' shows t₀ R)
    (init : R s₀ t₀) {trace : List ε} (run : Run step s₀ trace s) :
    ∃ trace' t, Run step' t₀ trace' t ∧ Mirrors shows trace trace' ∧ R s t := by
  induction run with
  | nil => exact ⟨[], t₀, .nil, .nil, init⟩
  | cons _ hstep ih =>
      obtain ⟨trace', t, hrun, hmirrors, hrel⟩ := ih
      rcases sim _ _ _ _ _ hrun hrel hstep with ⟨hhidden, hrel'⟩ | ⟨e', t', hshows, hstep', hrel'⟩
      · exact ⟨trace', t, hrun, .hidden hhidden hmirrors, hrel'⟩
      · exact ⟨e' :: trace', t', .cons hrun hstep', .shown hshows hmirrors, hrel'⟩

end Runs

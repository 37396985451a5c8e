import Mathlib.Tactic

/-!
# Runs of a transition system

A transition system is a relation between a state, an event and the next state.
A run is the list of its events, newest first, so that what happened before an
event is the tail of the list behind it.

## Main Definitions

* `Run step s₀ trace s`: the events of `trace` lead from `s₀` to `s`
* `exec f s₀ trace`: the same for a step function, as a computation

## Main Results

* `Run.invariant`, `Run.invariant_trace`: what holds at the start and is kept by
  every step holds at the end of every run
* `Run.split`: a run passes through a state at every point of its trace
* `run_of_exec`: a computed run is a run
-/

namespace Runs

variable {σ ε : Type*}

/-- The events of a trace, newest first, lead from one state to another. -/
inductive Run (step : σ → ε → σ → Prop) (s₀ : σ) : List ε → σ → Prop
  | nil : Run step s₀ [] s₀
  | cons {trace : List ε} {s s' : σ} {e : ε} :
      Run step s₀ trace s → step s e s' → Run step s₀ (e :: trace) s'

variable {step step' : σ → ε → σ → Prop} {s₀ : σ}

/-- **The invariant rule**, for a property of states and the traces that lead there. -/
theorem Run.invariant_trace {P : List ε → σ → Prop} (init : P [] s₀)
    (next : ∀ trace s e s', Run step s₀ trace s → P trace s → step s e s' → P (e :: trace) s')
    {trace : List ε} {s : σ} (run : Run step s₀ trace s) : P trace s := by
  induction run with
  | nil => exact init
  | cons prefix_run hstep ih => exact next _ _ _ _ prefix_run ih hstep

/-- **The invariant rule**, for a property of states. -/
theorem Run.invariant {P : σ → Prop} (init : P s₀)
    (next : ∀ s e s', P s → step s e s' → P s') {trace : List ε} {s : σ}
    (run : Run step s₀ trace s) : P s :=
  run.invariant_trace (P := fun _ s => P s) init fun _ s e s' _ h hstep => next s e s' h hstep

/-- A run of a system is a run of every system that allows its steps. -/
theorem Run.mono (sub : ∀ s e s', step s e s' → step' s e s') {trace : List ε} {s : σ}
    (run : Run step s₀ trace s) : Run step' s₀ trace s := by
  induction run with
  | nil => exact .nil
  | cons _ hstep ih => exact .cons ih (sub _ _ _ hstep)

/-- A run passes through a state at every point of its trace. -/
theorem Run.split {later earlier : List ε} {s : σ} (run : Run step s₀ (later ++ earlier) s) :
    ∃ mid, Run step s₀ earlier mid ∧ Run step mid later s := by
  induction later generalizing s with
  | nil => exact ⟨s, run, .nil⟩
  | cons e later ih =>
      rw [List.cons_append] at run
      cases run with
      | cons before hstep =>
          obtain ⟨mid, hearlier, hlater⟩ := ih before
          exact ⟨mid, hearlier, .cons hlater hstep⟩

/-- Runs compose. -/
theorem Run.append {later earlier : List ε} {mid s : σ} (first : Run step s₀ earlier mid)
    (second : Run step mid later s) : Run step s₀ (later ++ earlier) s := by
  induction second with
  | nil => exact first
  | cons _ hstep ih => exact .cons ih hstep

/-- The last step of a run. -/
theorem Run.of_cons {trace : List ε} {e : ε} {s : σ} (run : Run step s₀ (e :: trace) s) :
    ∃ before, Run step s₀ trace before ∧ step before e s := by
  cases run with
  | cons before hstep => exact ⟨_, before, hstep⟩

/-! ### Computed runs -/

/-- Run a step function along a trace, newest event first. -/
def exec (f : σ → ε → Option σ) (s₀ : σ) : List ε → Option σ
  | [] => some s₀
  | e :: trace => (exec f s₀ trace).bind fun s => f s e

/-- A step function with the states and events it is allowed to take. -/
def guarded (allowed : σ → ε → Prop) [∀ s e, Decidable (allowed s e)] (f : σ → ε → Option σ)
    (s : σ) (e : ε) : Option σ :=
  if allowed s e then f s e else none

/-- **A computed run is a run.** -/
theorem run_of_exec {f : σ → ε → Option σ} (hf : ∀ s e s', f s e = some s' → step s e s') :
    ∀ {trace : List ε} {s : σ}, exec f s₀ trace = some s → Run step s₀ trace s := by
  intro trace
  induction trace with
  | nil =>
      intro s h
      obtain rfl : s₀ = s := Option.some.inj h
      exact .nil
  | cons e trace ih =>
      intro s h
      obtain ⟨before, hbefore, hstep⟩ := Option.bind_eq_some_iff.mp h
      exact .cons (ih hbefore) (hf _ _ _ hstep)

/-- A computed run of a guarded step function takes allowed steps only. -/
theorem run_of_exec_guarded {allowed : σ → ε → Prop} [∀ s e, Decidable (allowed s e)]
    {f : σ → ε → Option σ} (hf : ∀ s e s', f s e = some s' → step s e s') {trace : List ε}
    {s : σ} (h : exec (guarded allowed f) s₀ trace = some s) :
    Run (fun s e s' => step s e s' ∧ allowed s e) s₀ trace s := by
  refine run_of_exec (fun s e s' hstep => ?_) h
  unfold guarded at hstep
  split at hstep
  · rename_i hallowed
    exact ⟨hf _ _ _ hstep, hallowed⟩
  · cases hstep

end Runs

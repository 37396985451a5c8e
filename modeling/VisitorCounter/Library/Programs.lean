import Mathlib.Tactic

/-!
# Programs that call their environment

A program either is done, with a value, or makes a call and goes on with the
reply.  It is a tree that branches over the replies, so that one program can be
run in a monad that offers the calls, or step by step among others, with
whatever replies its environment gives.

## Main Definitions

* `Program C R α`: programs with calls from `C`, a call `c` having replies in `R c`
* `Program.perform`: a single call
* `Program.interp`: a program, run in a monad that offers the calls
* `Program.Only P`: whatever the replies, all calls satisfy `P`
* `Program.Budget kind n`: whatever the replies, at most `n` calls are of a kind

## Main Results

* `Program.interp_bind`: running is a homomorphism of monads
* `Program.Only.bind`, `Program.Budget.bind`: the calls of a sequence
-/

namespace Programs

universe u v

/-- A program that makes calls and goes on with the replies. -/
inductive Program (C : Type u) (R : C → Type v) (α : Type v) : Type (max u v) where
  | done (a : α)
  | call (c : C) (next : R c → Program C R α)

namespace Program

variable {C : Type u} {R : C → Type v} {α β γ : Type v}

/-- Run a program, and then the one that its value selects. -/
def bind (p : Program C R α) (f : α → Program C R β) : Program C R β :=
  match p with
  | done a => f a
  | call c next => call c fun r => (next r).bind f

instance : Monad (Program C R) where
  pure := done
  bind := bind

/-- A single call. -/
def perform (c : C) : Program C R (R c) := call c done

@[simp] theorem done_bind (a : α) (f : α → Program C R β) : (done a >>= f) = f a := rfl

@[simp] theorem call_bind (c : C) (next : R c → Program C R α) (f : α → Program C R β) :
    (call c next >>= f) = call c fun r => next r >>= f := rfl

theorem bind_done (p : Program C R α) : (p >>= done) = p := by
  induction p with
  | done a => rfl
  | call c next ih =>
      rw [call_bind]
      congr 1
      funext r
      exact ih r

theorem bind_assoc (p : Program C R α) (f : α → Program C R β) (g : β → Program C R γ) :
    (p >>= f >>= g) = p >>= fun a => f a >>= g := by
  induction p with
  | done a => rfl
  | call c next ih =>
      rw [call_bind, call_bind, call_bind]
      congr 1
      funext r
      exact ih r

instance : LawfulMonad (Program C R) :=
  LawfulMonad.mk' _ bind_done done_bind bind_assoc

/-! ### Running a program -/

section Interp

variable {m : Type v → Type v} [Monad m] {offer : (c : C) → m (R c)}

/-- A program, run in a monad that offers its calls. -/
def interp (offer : (c : C) → m (R c)) : Program C R α → m α
  | done a => pure a
  | call c next => offer c >>= fun r => (next r).interp offer

@[simp] theorem interp_done (a : α) : (done a : Program C R α).interp offer = pure a := rfl

theorem interp_call (c : C) (next : R c → Program C R α) :
    (call c next).interp offer = offer c >>= fun r => (next r).interp offer := rfl

variable [LawfulMonad m]

/-- **Running is a homomorphism of monads.** -/
theorem interp_bind (p : Program C R α) (f : α → Program C R β) :
    (p >>= f).interp offer = p.interp offer >>= fun a => (f a).interp offer := by
  induction p with
  | done a => rw [done_bind, interp_done, pure_bind]
  | call c next ih =>
      rw [call_bind, interp_call, interp_call, LawfulMonad.bind_assoc]
      congr 1
      funext r
      exact ih r

end Interp

/-! ### The calls of a program -/

/-- Whatever the replies, every call of the program satisfies `P`. -/
def Only (P : C → Prop) : Program C R α → Prop
  | done _ => True
  | call c next => P c ∧ ∀ r, (next r).Only P

/-- Whatever the replies, at most so many calls of the program are of a kind. -/
def Budget (kind : C → Bool) : Program C R α → ℕ → Prop
  | done _, _ => True
  | call c next, n =>
      ∃ left, left + (if kind c then 1 else 0) ≤ n ∧ ∀ r, (next r).Budget kind left

variable {P : C → Prop} {kind : C → Bool}

theorem Only.mono {Q : C → Prop} (hPQ : ∀ c, P c → Q c) {p : Program C R α} (hp : p.Only P) :
    p.Only Q := by
  induction p with
  | done a => trivial
  | call c next ih => exact ⟨hPQ c hp.1, fun r => ih r (hp.2 r)⟩

theorem Only.bind {p : Program C R α} {f : α → Program C R β} (hp : p.Only P)
    (hf : ∀ a, (f a).Only P) : (p >>= f).Only P := by
  induction p with
  | done a => exact hf a
  | call c next ih => exact ⟨hp.1, fun r => ih r (hp.2 r)⟩

theorem Budget.mono {p : Program C R α} {n m : ℕ} (hp : p.Budget kind n) (h : n ≤ m) :
    p.Budget kind m := by
  cases p with
  | done a => trivial
  | call c next =>
      obtain ⟨left, hleft, hnext⟩ := hp
      exact ⟨left, hleft.trans h, hnext⟩

/-- The budgets of a sequence add up. -/
theorem Budget.bind {p : Program C R α} {f : α → Program C R β} {n m : ℕ} (hp : p.Budget kind n)
    (hf : ∀ a, (f a).Budget kind m) : (p >>= f).Budget kind (n + m) := by
  induction p generalizing n with
  | done a => exact (hf a).mono (Nat.le_add_left m n)
  | call c next ih =>
      obtain ⟨left, hleft, hnext⟩ := hp
      exact ⟨left + m, by omega, fun r => ih r (hnext r)⟩

end Program

end Programs

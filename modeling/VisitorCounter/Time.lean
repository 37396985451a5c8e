import Mathlib.Tactic

/-!
# Wall-clock times, panics and errors

The store measures time with `std::time::SystemTime` and `std::time::Duration`,
and it panics through `expect` when a time is out of order or out of range.
These are modelled here once, together with the error type of the store.

## Main Definitions

* `Panic` and `expect`: a panic carries the message of its `expect`
* `BoxError`: an error that the store returns
* `SystemTime.durationSince`, `Duration.asSecs`: the two operations in use
* `floorToSeconds`: what is left of a time that went through storage

## Design Notes

A `SystemTime` is the integer number of nanoseconds since `UNIX_EPOCH`, so that
a time before the epoch exists and `duration_since` can fail, as it does in the
standard library.  A `Duration` is a natural number of nanoseconds.  Both are
plain numbers, so that statements about times are ordinary arithmetic.

The release profile sets `panic = "abort"`: no code catches a panic, and
`Except Panic` with its short-circuiting bind is the whole behaviour.
-/

namespace VisitorCounter

/-- A panic raised by `expect`, with its message. -/
structure Panic where
  message : String
deriving DecidableEq, Repr

/-- `Option::expect` and `Result::expect`: the value, or a panic with the given message. -/
def expect {α : Type} (value : Option α) (message : String) : Except Panic α :=
  match value with
  | some a => .ok a
  | none => .error ⟨message⟩

@[simp] theorem expect_some {α : Type} (a : α) (message : String) :
    expect (some a) message = .ok a := rfl

@[simp] theorem expect_none {α : Type} (message : String) :
    expect (none : Option α) message = .error ⟨message⟩ := rfl

/-- A sequence of steps returns only if its first step does. -/
theorem bind_eq_ok_iff {ε α β : Type} {x : Except ε α} {f : α → Except ε β} {b : β} :
    (x >>= f) = .ok b ↔ ∃ a, x = .ok a ∧ f a = .ok b := by
  cases x with
  | error e => simp [bind, Except.bind]
  | ok a => simp [bind, Except.bind]

/-- A sequence of steps stops at the first one that fails. -/
theorem bind_eq_error_iff {ε α β : Type} {x : Except ε α} {f : α → Except ε β} {e : ε} :
    (x >>= f) = .error e ↔ x = .error e ∨ ∃ a, x = .ok a ∧ f a = .error e := by
  cases x with
  | error e => simp [bind, Except.bind]
  | ok a => simp [bind, Except.bind]

theorem expect_eq_ok_iff {α : Type} {value : Option α} {message : String} {a : α} :
    expect value message = .ok a ↔ value = some a := by
  cases value <;> simp

/-- `BoxError`: an error with a message of the store itself, an error of the
DynamoDB client, or a decoding error of `ciborium`. -/
inductive BoxError where
  | message (text : String)
  | sdk (text : String)
  | cbor (text : String)
deriving DecidableEq, Repr

/-- `SystemTime::UNIX_EPOCH`. -/
def unixEpoch : ℤ := 0

/-- `Duration::from_secs`. -/
def Duration.fromSecs (secs : ℕ) : ℕ := secs * 1_000_000_000

/-- `Duration::as_secs`: whole seconds, the sub-second part is dropped. -/
def Duration.asSecs (d : ℕ) : ℕ := d / 1_000_000_000

/-- `SystemTime::duration_since`: an error when `earlier` is the later of the two. -/
def SystemTime.durationSince (self earlier : ℤ) : Option ℕ :=
  if earlier ≤ self then some (self - earlier).toNat else none

/-- The start of the second a time falls in. -/
def floorToSeconds (t : ℤ) : ℤ := t / 1_000_000_000 * 1_000_000_000

theorem SystemTime.durationSince_eq_some_iff {self earlier : ℤ} {d : ℕ} :
    SystemTime.durationSince self earlier = some d ↔
      earlier ≤ self ∧ (d : ℤ) = self - earlier := by
  unfold SystemTime.durationSince
  split
  · rw [Option.some.injEq]
    omega
  · simp only [reduceCtorEq, false_iff]
    omega

theorem SystemTime.durationSince_eq_none_iff {self earlier : ℤ} :
    SystemTime.durationSince self earlier = none ↔ self < earlier := by
  unfold SystemTime.durationSince
  split
  · simp only [reduceCtorEq, false_iff]
    omega
  · simp only [true_iff]
    omega

/-! ### Rounding down to whole seconds -/

theorem floorToSeconds_le (t : ℤ) : floorToSeconds t ≤ t := by
  unfold floorToSeconds; omega

theorem lt_floorToSeconds_add (t : ℤ) : t < floorToSeconds t + 1_000_000_000 := by
  unfold floorToSeconds; omega

theorem floorToSeconds_mono {s t : ℤ} (h : s ≤ t) : floorToSeconds s ≤ floorToSeconds t := by
  unfold floorToSeconds; omega

end VisitorCounter

import VisitorCounter.Time

/-!
# Visitors and count entries

The in-memory visitor carries a `SystemTime`; the stored one carries the seconds
since `TIMESTAMP_OFFSET` in a `u32`.  This module has the two representations of
a visitor, the two of a count entry, and the conversions between them.

## Main Definitions

* `Visitor`, `StoredVisitor`, `CountEntry`, `StoredCountEntry`
* `StoredVisitor.ofVisitor`, `Visitor.ofStored`: the `From` instances on visitors
* `StoredCountEntry.ofCountEntry`, `CountEntry.ofStored`: those on entries
* `Representable`: the times that fit the stored form

## Main Results

* `StoredVisitor.ofVisitor_eq_ok_iff`: storing succeeds exactly on representable
  times, keeps the tag and rounds the time down to its second
* `StoredCountEntry.ofCountEntry_eq_ok_iff`: the same, entry by entry
-/

namespace VisitorCounter

/-- `TIMESTAMP_OFFSET`: seconds since the epoch at which stored timestamps start. -/
def timestampOffset : ℕ := 1_690_000_000

/-- The stored representation of a visitor: `lastSeen` is in seconds since
`timestampOffset`. -/
structure StoredVisitor where
  tag : UInt32
  lastSeen : UInt32
deriving DecidableEq, Repr

/-- A visitor to the site: `tag` is the hashed source IP and user agent. -/
structure Visitor where
  tag : UInt32
  lastSeen : ℤ
deriving DecidableEq, Repr

/-- `u64::checked_sub`. -/
def checkedSub (a b : ℕ) : Option ℕ := if b ≤ a then some (a - b) else none

/-- `u32::try_from`. -/
def u32TryFrom (n : ℕ) : Option UInt32 := if n < 2 ^ 32 then some (UInt32.ofNat n) else none

theorem checkedSub_eq_some_iff {a b d : ℕ} : checkedSub a b = some d ↔ a = b + d := by
  unfold checkedSub
  split
  · rw [Option.some.injEq]
    omega
  · simp only [reduceCtorEq, false_iff]
    omega

theorem u32TryFrom_eq_some_iff {n : ℕ} {k : UInt32} : u32TryFrom n = some k ↔ n = k.toNat := by
  have bound := k.toNat_lt
  unfold u32TryFrom
  split
  · rename_i fits
    rw [Option.some.injEq, ← UInt32.toNat_inj, UInt32.toNat_ofNat_of_lt' fits]
  · simp only [reduceCtorEq, false_iff]
    omega

/-- `impl From<Visitor> for StoredVisitor`. -/
def StoredVisitor.ofVisitor (value : Visitor) : Except Panic StoredVisitor := do
  let sinceEpoch ← expect (SystemTime.durationSince value.lastSeen unixEpoch)
    "unix epoch before last seen"
  let secs ← expect (checkedSub (Duration.asSecs sinceEpoch) timestampOffset)
    "last_seen will always be after TIMESTAMP_OFFSET"
  let lastSeen ← expect (u32TryFrom secs)
    "last_seen will fit in a u32 until something like year 2140"
  return { tag := value.tag, lastSeen := lastSeen }

/-- `impl From<StoredVisitor> for Visitor`. -/
def Visitor.ofStored (value : StoredVisitor) : Visitor where
  tag := value.tag
  lastSeen := unixEpoch + Duration.fromSecs (timestampOffset + value.lastSeen.toNat)

/-- Stored representation of a count entry: what the `value` attribute encodes. -/
structure StoredCountEntry where
  recentVisitors : List StoredVisitor
deriving DecidableEq, Repr

/-- A count, and the most recent visitors contributing to that count. -/
structure CountEntry where
  count : UInt64
  recentVisitors : List Visitor
deriving DecidableEq, Repr

/-- `impl From<&CountEntry> for StoredCountEntry`: the count is not part of it. -/
def StoredCountEntry.ofCountEntry (value : CountEntry) : Except Panic StoredCountEntry := do
  let recentVisitors ← value.recentVisitors.mapM StoredVisitor.ofVisitor
  return { recentVisitors := recentVisitors }

/-- `impl From<StoredCountEntry> for CountEntry`: the count is filled in by the caller. -/
def CountEntry.ofStored (value : StoredCountEntry) : CountEntry where
  count := 0
  recentVisitors := value.recentVisitors.map Visitor.ofStored

/-! ### The stored form of a time -/

/-- The time a stored visitor was last seen. -/
def StoredVisitor.time (value : StoredVisitor) : ℤ := (Visitor.ofStored value).lastSeen

@[simp] theorem Visitor.ofStored_lastSeen (value : StoredVisitor) :
    (Visitor.ofStored value).lastSeen = value.time := rfl

/-- The times a `StoredVisitor` can hold, sub-second part aside. -/
def Representable (t : ℤ) : Prop :=
  1_690_000_000 * 1_000_000_000 ≤ t ∧ t < (1_690_000_000 + 2 ^ 32) * 1_000_000_000

instance (t : ℤ) : Decidable (Representable t) := inferInstanceAs (Decidable (_ ∧ _))

theorem StoredVisitor.time_eq (value : StoredVisitor) :
    value.time = (1_690_000_000 + (value.lastSeen.toNat : ℤ)) * 1_000_000_000 := by
  simp only [StoredVisitor.time, Visitor.ofStored, unixEpoch, Duration.fromSecs, timestampOffset]
  push_cast
  ring

@[simp] theorem Visitor.ofStored_tag (value : StoredVisitor) :
    (Visitor.ofStored value).tag = value.tag := rfl

/-- Stored times are whole seconds. -/
@[simp] theorem floorToSeconds_time (value : StoredVisitor) :
    floorToSeconds value.time = value.time := by
  rw [StoredVisitor.time_eq]
  unfold floorToSeconds
  omega

theorem representable_time (value : StoredVisitor) : Representable value.time := by
  have bound := value.lastSeen.toNat_lt
  rw [StoredVisitor.time_eq]
  unfold Representable
  omega

/-- A stored visitor is determined by its tag and its time. -/
theorem StoredVisitor.ext_time {x y : StoredVisitor} (tag : x.tag = y.tag)
    (time : x.time = y.time) : x = y := by
  rw [StoredVisitor.time_eq, StoredVisitor.time_eq] at time
  have seconds : x.lastSeen = y.lastSeen := UInt32.toNat_inj.mp (by omega)
  cases x
  cases y
  simp_all

/-- The stored form of a visitor whose time is representable. -/
def Visitor.stored (value : Visitor) : StoredVisitor where
  tag := value.tag
  lastSeen := UInt32.ofNat (value.lastSeen / 1_000_000_000 - 1_690_000_000).toNat

@[simp] theorem Visitor.stored_tag (value : Visitor) : value.stored.tag = value.tag := rfl

/-- The stored time is the visitor's time, rounded down to its second. -/
theorem Visitor.stored_time {value : Visitor} (h : Representable value.lastSeen) :
    value.stored.time = floorToSeconds value.lastSeen := by
  unfold Representable at h
  have fits : (value.lastSeen / 1_000_000_000 - 1_690_000_000).toNat < UInt32.size := by
    unfold UInt32.size
    omega
  simp only [StoredVisitor.time_eq, Visitor.stored, UInt32.toNat_ofNat_of_lt' fits,
    floorToSeconds]
  omega

/-- A loaded visitor is stored back as it was. -/
@[simp] theorem Visitor.stored_ofStored (value : StoredVisitor) :
    (Visitor.ofStored value).stored = value := by
  apply StoredVisitor.ext_time
  · rw [Visitor.stored_tag, Visitor.ofStored_tag]
  · rw [Visitor.stored_time (representable_time value), Visitor.ofStored_lastSeen,
      floorToSeconds_time]

/-- A list that was loaded is written back as it was. -/
theorem map_stored_ofStored (l : List StoredVisitor) :
    (l.map Visitor.ofStored).map Visitor.stored = l := by
  rw [List.map_map]
  exact List.map_id'' Visitor.stored_ofStored l

/-- Storing a visitor succeeds exactly when its time is representable. -/
theorem StoredVisitor.ofVisitor_eq_ok_iff {value : Visitor} {stored : StoredVisitor} :
    StoredVisitor.ofVisitor value = .ok stored ↔
      Representable value.lastSeen ∧ stored = value.stored := by
  unfold StoredVisitor.ofVisitor
  simp only [bind_eq_ok_iff, expect_eq_ok_iff, SystemTime.durationSince_eq_some_iff,
    checkedSub_eq_some_iff, u32TryFrom_eq_some_iff, pure, Except.pure, Except.ok.injEq,
    Duration.asSecs, timestampOffset, unixEpoch]
  constructor
  · rintro ⟨d, ⟨-, hd⟩, secs, hsecs, lastSeen, hlast, rfl⟩
    have bound := lastSeen.toNat_lt
    have hrep : Representable value.lastSeen := by
      unfold Representable
      omega
    refine ⟨hrep, StoredVisitor.ext_time rfl ?_⟩
    rw [Visitor.stored_time hrep]
    simp only [StoredVisitor.time_eq, floorToSeconds]
    omega
  · rintro ⟨hrep, rfl⟩
    have htime := Visitor.stored_time hrep
    rw [StoredVisitor.time_eq] at htime
    unfold floorToSeconds at htime
    unfold Representable at hrep
    exact ⟨value.lastSeen.toNat, by omega, value.stored.lastSeen.toNat, by omega,
      value.stored.lastSeen, rfl, rfl⟩

/-! ### The stored form of an entry -/

/-- A function that fails on some elements maps a list exactly when it fails on none of it. -/
theorem mapM_eq_ok_iff {ε α β : Type} {f : α → Except ε β} {P : α → Prop} {g : α → β}
    (hf : ∀ a b, f a = .ok b ↔ P a ∧ b = g a) :
    ∀ {l : List α} {l' : List β}, l.mapM f = .ok l' ↔ (∀ a ∈ l, P a) ∧ l' = l.map g := by
  intro l
  induction l with
  | nil => intro l'; simp [pure, Except.pure, eq_comm]
  | cons a l ih =>
      intro l'
      rw [List.mapM_cons]
      simp only [bind_eq_ok_iff, hf, ih, pure, Except.pure, Except.ok.injEq, List.forall_mem_cons,
        List.map_cons]
      constructor
      · rintro ⟨b, ⟨ha, rfl⟩, bs, ⟨hl, rfl⟩, rfl⟩
        exact ⟨⟨ha, hl⟩, rfl⟩
      · rintro ⟨⟨ha, hl⟩, rfl⟩
        exact ⟨_, ⟨ha, rfl⟩, _, ⟨hl, rfl⟩, rfl⟩

/-- Storing an entry succeeds exactly when all its times are representable, and
stores its visitors one by one, in order. -/
theorem StoredCountEntry.ofCountEntry_eq_ok_iff {value : CountEntry}
    {stored : StoredCountEntry} :
    StoredCountEntry.ofCountEntry value = .ok stored ↔
      (∀ v ∈ value.recentVisitors, Representable v.lastSeen) ∧
        stored = ⟨value.recentVisitors.map Visitor.stored⟩ := by
  unfold StoredCountEntry.ofCountEntry
  simp only [bind_eq_ok_iff, pure, Except.pure, Except.ok.injEq,
    mapM_eq_ok_iff fun _ _ => StoredVisitor.ofVisitor_eq_ok_iff]
  constructor
  · rintro ⟨visitors, ⟨h, rfl⟩, rfl⟩
    exact ⟨h, rfl⟩
  · rintro ⟨h, rfl⟩
    exact ⟨_, ⟨h, rfl⟩, rfl⟩

end VisitorCounter

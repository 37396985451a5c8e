import VisitorCounter.Recent

/-!
# One attempt of an invocation

An attempt of `maybe_increment_visitors` loads the item, works on it in memory
and puts it back under a condition on the count.  Everything between the reply
to the get and the put is a function of the invocation's arguments and the
loaded item: `Invocation.attempt`.

## Main Definitions

* `StoredItem`: what an item holds, count and recent visitors
* `PutRequest`: an item to put and the condition to put it under
* `Invocation.attempt`: from the loaded item to the put, or to a panic
* `Invocation.addsVisitor`: whether that put is a creation or for a new visitor
* `Refreshes`, `Pushes`: the two kinds of update

## Main Results

* `attempt_none_eq_ok_iff`, `attempt_some_cases`: what an attempt can put
* `counts_eq_addsVisitor`: which puts change the count
* `Written.mem_recent`, `Written.exists_mem_recent`: the written list, entry by
  entry, against the list in memory
* `exists_attempt_eq_ok`: when an attempt succeeds

## Design Notes

An item appears here as what its attributes hold; `VisitorCounter.Store` has the
attributes themselves, and `VisitorCounter.RoundTrip` shows that writing and
reading them loses nothing.
-/

namespace VisitorCounter

open RecencyList

/-- `MAX_ATTEMPTS_FOR_OPTIMISTIC_LOCKING`. -/
def maxAttemptsForOptimisticLocking : ℕ := 5

/-- The error of the retry loop when it gives up. -/
def maxAttemptsExceeded : BoxError := .message "max attempts for optimistic locking exceeded"

/-- `DYNAMO_MAX_ITEM_SIZE_BYTES`. -/
def dynamoMaxItemSizeBytes : ℕ := 400_000

/-- `RESERVED_NON_VALUE_SIZE_BYTES`. -/
def reservedNonValueSizeBytes : ℕ := 1024

/-- `SIZE_SINGLE_VISITOR_BYTES`. -/
def sizeSingleVisitorBytes : ℕ := 15

/-- `MAX_RECENT_VISITORS`: as many visitors as fit the space for the value. -/
def maxRecentVisitors : ℕ :=
  (dynamoMaxItemSizeBytes - reservedNonValueSizeBytes) / sizeSingleVisitorBytes

theorem maxRecentVisitors_eq : maxRecentVisitors = 26598 := rfl

/-- What an item of the table holds under its key: the `count` attribute and the
decoded `value` attribute. -/
structure StoredItem where
  count : UInt64
  value : StoredCountEntry
deriving DecidableEq, Repr

/-- The recent visitors of an item. -/
def StoredItem.recent (item : StoredItem) : List StoredVisitor := item.value.recentVisitors

@[simp] theorem StoredItem.recent_mk (count : UInt64) (visitors : List StoredVisitor) :
    StoredItem.recent ⟨count, ⟨visitors⟩⟩ = visitors := rfl

/-- The recent visitors of an item that may be absent. -/
def entriesOf (item : Option StoredItem) : List StoredVisitor :=
  match item with
  | some item => item.recent
  | none => []

/-- A conditional put: `none` is `attribute_not_exists(key)`, `some c` is
`count = c`. -/
structure PutRequest where
  expected : Option UInt64
  item : StoredItem
deriving DecidableEq, Repr

/-- The condition of a put, on the item as it is when the put arrives. -/
def PutRequest.holds (request : PutRequest) (current : Option StoredItem) : Bool :=
  match request.expected, current with
  | none, none => true
  | some count, some item => count == item.count
  | _, _ => false

/-- A put that changes the stored count. -/
def PutRequest.counts (request : PutRequest) : Bool :=
  decide (request.expected ≠ some request.item.count)

/-- The put of `try_put_new_count_entry`. -/
def newCountEntryPut (visitor : Visitor) : Except Panic PutRequest := do
  let stored ← StoredVisitor.ofVisitor visitor
  return { expected := none, item := { count := 1, value := { recentVisitors := [stored] } } }

/-- The put of `try_put_count_entry`. -/
def countEntryPut (initialCount : UInt64) (entry : CountEntry) : Except Panic PutRequest := do
  let value ← StoredCountEntry.ofCountEntry entry
  return { expected := some initialCount, item := { count := entry.count, value := value } }

/-- The entry that `get_count_entry` makes of an item. -/
def CountEntry.ofItem (item : StoredItem) : CountEntry :=
  { CountEntry.ofStored item.value with count := item.count }

/-- The arguments of `maybe_increment_visitors`, apart from the name of the counter. -/
structure Invocation where
  visitor : Visitor
  now : ℤ
deriving DecidableEq, Repr

/-- One attempt of `maybe_increment_visitors`, from the loaded item to its put. -/
def Invocation.attempt (inv : Invocation) (loaded : Option StoredItem) :
    Except Panic PutRequest :=
  match loaded with
  | some item => do
      let countEntry := CountEntry.ofItem item
      let initialCount := countEntry.count
      let countEntry ← recordVisit countEntry inv.visitor inv.now
      let countEntry ← pruneVisitors countEntry inv.now maxRecentVisitors
      countEntryPut initialCount countEntry
  | none => newCountEntryPut inv.visitor

/-- A `u64` counter below its last value does not wrap. -/
theorem toNat_add_one {count : UInt64} (h : count.toNat < 2 ^ 64 - 1) :
    (count + 1).toNat = count.toNat + 1 := by
  rw [UInt64.toNat_add, UInt64.toNat_one, Nat.mod_eq_of_lt (by omega)]

@[simp] theorem CountEntry.ofItem_count (item : StoredItem) :
    (CountEntry.ofItem item).count = item.count := rfl

@[simp] theorem CountEntry.ofItem_recentVisitors (item : StoredItem) :
    (CountEntry.ofItem item).recentVisitors = item.recent.map Visitor.ofStored := rfl

@[simp] theorem PutRequest.holds_none_left {item : StoredItem} {current : Option StoredItem} :
    PutRequest.holds ⟨none, item⟩ current = true ↔ current = none := by
  cases current <;> simp [PutRequest.holds]

@[simp] theorem PutRequest.holds_some_left {count : UInt64} {item : StoredItem}
    {current : Option StoredItem} :
    PutRequest.holds ⟨some count, item⟩ current = true ↔
      ∃ found, current = some found ∧ found.count = count := by
  cases current with
  | none => simp [PutRequest.holds]
  | some found => simpa [PutRequest.holds] using eq_comm

/-! ### What an attempt can put -/

/-- `request` writes the in-memory list `memory`, pruned at the invocation's `now`,
over an item with the given count. -/
structure Written (inv : Invocation) (initialCount : UInt64) (memory : List Visitor)
    (request : PutRequest) : Prop where
  expected : request.expected = some initialCount
  /-- No entry in memory is later than `now`, otherwise the pruning panics. -/
  not_after : ∀ v ∈ memory, v.lastSeen ≤ inv.now
  representable : ∀ v ∈ cull MoreRecent maxRecentVisitors (recentOnly inv.now memory),
    Representable v.lastSeen
  recent : request.item.recent =
    (cull MoreRecent maxRecentVisitors (recentOnly inv.now memory)).map Visitor.stored

/-- An update puts the entry under the condition that the count is the initial one. -/
theorem countEntryPut_eq_ok_iff {initialCount : UInt64} {entry : CountEntry}
    {request : PutRequest} :
    countEntryPut initialCount entry = .ok request ↔
      (∀ v ∈ entry.recentVisitors, Representable v.lastSeen) ∧
        request =
          ⟨some initialCount, ⟨entry.count, ⟨entry.recentVisitors.map Visitor.stored⟩⟩⟩ := by
  simp only [countEntryPut, bind_eq_ok_iff, StoredCountEntry.ofCountEntry_eq_ok_iff, pure,
    Except.pure, Except.ok.injEq]
  constructor
  · rintro ⟨value, ⟨hrep, rfl⟩, rfl⟩
    exact ⟨hrep, rfl⟩
  · rintro ⟨hrep, rfl⟩
    exact ⟨_, ⟨hrep, rfl⟩, rfl⟩

/-- Without an item, an attempt puts the visitor alone and expects no item. -/
theorem attempt_none_eq_ok_iff {inv : Invocation} {request : PutRequest} :
    inv.attempt none = .ok request ↔
      Representable inv.visitor.lastSeen ∧
        request = ⟨none, ⟨1, ⟨[inv.visitor.stored]⟩⟩⟩ := by
  simp only [Invocation.attempt, newCountEntryPut, bind_eq_ok_iff,
    StoredVisitor.ofVisitor_eq_ok_iff, pure, Except.pure, Except.ok.injEq]
  constructor
  · rintro ⟨stored, ⟨hrep, rfl⟩, rfl⟩
    exact ⟨hrep, rfl⟩
  · rintro ⟨hrep, rfl⟩
    exact ⟨_, ⟨hrep, rfl⟩, rfl⟩

/-- The list of an attempt on an item as the pruning has filtered it, before it is culled. -/
def Invocation.retained (inv : Invocation) (item : StoredItem) : Except Panic (List Visitor) := do
  let recorded ← recordVisit (CountEntry.ofItem item) inv.visitor inv.now
  recorded.recentVisitors.filterM (seenRecently inv.now)

/-- The time that an attempt records for its visitor: `now` when it finds the
visitor among the recent ones, `lastSeen` when it pushes it or creates the item. -/
def Invocation.recordedAt (inv : Invocation) (loaded : Option StoredItem) : ℤ :=
  match loaded with
  | some item =>
      match findRecentMut (CountEntry.ofItem item) inv.visitor inv.now with
      | .ok (some _) => inv.now
      | _ => inv.visitor.lastSeen
  | none => inv.visitor.lastSeen

/-- The put of an attempt is a creation, or an update for a new visitor: there is no
item, or `find_recent_mut` does not find the visitor in it.  Otherwise it is a refresh. -/
def Invocation.addsVisitor (inv : Invocation) (loaded : Option StoredItem) : Bool :=
  match loaded with
  | some item =>
      match findRecentMut (CountEntry.ofItem item) inv.visitor inv.now with
      | .ok (some _) => false
      | _ => true
  | none => true

/-- `request` refreshes the visitor of `item`: the visitor's first entry was
recent and has been moved to `now`. -/
structure Refreshes (inv : Invocation) (item : StoredItem) (request : PutRequest) : Prop where
  known : ∃ found, (item.recent.map Visitor.ofStored).find? (isTag inv.visitor.tag) = some found ∧
    found.lastSeen ≤ inv.now ∧ Recent inv.now found.lastSeen
  count : request.item.count = item.count
  retained : inv.retained item = .ok (recentOnly inv.now
    (refreshed inv.visitor.tag inv.now (item.recent.map Visitor.ofStored)))
  written : Written inv item.count
    (refreshed inv.visitor.tag inv.now (item.recent.map Visitor.ofStored)) request

/-- `request` pushes the visitor onto `item` and counts it: the visitor had no
entry, or its first entry was stale. -/
structure Pushes (inv : Invocation) (item : StoredItem) (request : PutRequest) : Prop where
  unknown : ∀ found, (item.recent.map Visitor.ofStored).find? (isTag inv.visitor.tag) = some found →
    ¬ Recent inv.now found.lastSeen
  count : request.item.count = item.count + 1
  retained : inv.retained item = .ok (recentOnly inv.now
    (item.recent.map Visitor.ofStored ++ [inv.visitor]))
  written : Written inv item.count (item.recent.map Visitor.ofStored ++ [inv.visitor]) request

/-- **What an attempt on a loaded item can put.** -/
theorem attempt_some_cases {inv : Invocation} {item : StoredItem} {request : PutRequest}
    (h : inv.attempt (some item) = .ok request) :
    Refreshes inv item request ∨ Pushes inv item request := by
  simp only [Invocation.attempt, bind_eq_ok_iff, countEntryPut_eq_ok_iff] at h
  obtain ⟨recorded, hrecord, pruned, hprune, hrep, rfl⟩ := h
  obtain ⟨hle, hcount, hrecent⟩ := pruneVisitors_eq_ok_iff.mp hprune
  rw [hrecent] at hrep
  have hretained : inv.retained item = .ok (recentOnly inv.now recorded.recentVisitors) :=
    bind_eq_ok_iff.mpr ⟨recorded, hrecord, filterM_seenRecently_eq_ok_iff.mpr ⟨hle, rfl⟩⟩
  rcases recordVisit_cases hrecord with ⟨found, hfind, hseen, hfresh, hsame, hlist⟩ |
    ⟨hno, hnext, hlist⟩
  · rw [hlist] at hle hrep hrecent hretained
    exact Or.inl ⟨⟨found, hfind, hseen, hfresh⟩, hcount.trans hsame, hretained,
      ⟨rfl, hle, hrep, congrArg (List.map Visitor.stored) hrecent⟩⟩
  · rw [hlist] at hle hrep hrecent hretained
    exact Or.inr ⟨fun found hfind => (hno found hfind).2, hcount.trans hnext, hretained,
      ⟨rfl, hle, hrep, congrArg (List.map Visitor.stored) hrecent⟩⟩

namespace Written

variable {inv : Invocation} {initialCount : UInt64} {memory : List Visitor}
  {request : PutRequest}

/-- The written tags are those of the pruned list, in order. -/
theorem map_tag (h : Written inv initialCount memory request) :
    request.item.recent.map StoredVisitor.tag =
      (cull MoreRecent maxRecentVisitors (recentOnly inv.now memory)).map Visitor.tag := by
  rw [h.recent, List.map_map]
  rfl

/-- The written tags are those in memory, when every entry there is recent and fits. -/
theorem map_tag_of_fits (h : Written inv initialCount memory request)
    (hrecent : ∀ v ∈ memory, Recent inv.now v.lastSeen)
    (hfits : memory.length ≤ maxRecentVisitors) :
    request.item.recent.map StoredVisitor.tag = memory.map Visitor.tag := by
  have hall : recentOnly inv.now memory = memory :=
    List.filter_eq_self.mpr fun v hv => decide_eq_true (hrecent v hv)
  rw [h.map_tag, hall, cull_eq_self hfits]

theorem length_recent_le (h : Written inv initialCount memory request) :
    request.item.recent.length ≤ maxRecentVisitors := by
  rw [h.recent, List.length_map]
  exact length_cull_le _ _

theorem length_recent_le_memory (h : Written inv initialCount memory request) :
    request.item.recent.length ≤ memory.length := by
  rw [h.recent, List.length_map]
  exact (length_cull_le_length _ _).trans (List.length_filter_le _ _)

/-- A written entry is a recent entry of the list in memory, rounded down. -/
theorem mem_recent (h : Written inv initialCount memory request) {s : StoredVisitor}
    (hs : s ∈ request.item.recent) :
    ∃ v ∈ memory, Recent inv.now v.lastSeen ∧ s.tag = v.tag ∧
      s.time = floorToSeconds v.lastSeen := by
  rw [h.recent] at hs
  obtain ⟨v, hv, rfl⟩ := List.mem_map.mp hs
  obtain ⟨hmem, hrecent⟩ := List.mem_filter.mp (mem_of_mem_cull hv)
  exact ⟨v, hmem, by simpa using hrecent, rfl, Visitor.stored_time (h.representable v hv)⟩

/-- Without culling, every recent entry in memory is written, rounded down. -/
theorem exists_mem_recent (h : Written inv initialCount memory request)
    (hfits : (recentOnly inv.now memory).length ≤ maxRecentVisitors) {v : Visitor}
    (hv : v ∈ memory) (hrecent : Recent inv.now v.lastSeen) :
    ∃ s ∈ request.item.recent, s.tag = v.tag ∧ s.time = floorToSeconds v.lastSeen := by
  have hkept : v ∈ cull MoreRecent maxRecentVisitors (recentOnly inv.now memory) := by
    rw [cull_eq_self hfits]
    exact List.mem_filter.mpr ⟨hv, by simpa using hrecent⟩
  refine ⟨v.stored, ?_, rfl, Visitor.stored_time (h.representable v hkept)⟩
  rw [h.recent]
  exact List.mem_map_of_mem hkept

/-- An entry in memory that was loaded is written as it was. -/
theorem mem_of_ofStored_mem (h : Written inv initialCount memory request)
    (hfits : (recentOnly inv.now memory).length ≤ maxRecentVisitors) {e : StoredVisitor}
    (he : Visitor.ofStored e ∈ memory) (hrecent : Recent inv.now e.time) :
    e ∈ request.item.recent := by
  obtain ⟨s, hs, htag, htime⟩ := h.exists_mem_recent hfits he hrecent
  rw [Visitor.ofStored_lastSeen, floorToSeconds_time] at htime
  rwa [← StoredVisitor.ext_time htag htime]

/-- The put is applied to any item with the count of the item it was prepared from. -/
theorem holds_iff (h : Written inv initialCount memory request) {current : Option StoredItem} :
    request.holds current = true ↔ ∃ found, current = some found ∧ found.count = initialCount := by
  cases request
  obtain rfl := h.expected
  exact PutRequest.holds_some_left

/-- No written entry is later than `now`. -/
theorem le_now (h : Written inv initialCount memory request) {s : StoredVisitor}
    (hs : s ∈ request.item.recent) : s.time ≤ inv.now := by
  obtain ⟨v, hv, -, -, htime⟩ := h.mem_recent hs
  rw [htime]
  exact (floorToSeconds_le _).trans (h.not_after v hv)

end Written

/-- A refresh records the visitor at `now`. -/
theorem Refreshes.recordedAt_eq {inv : Invocation} {item : StoredItem} {request : PutRequest}
    (h : Refreshes inv item request) : inv.recordedAt (some item) = inv.now := by
  obtain ⟨found, hfind, hle, hrecent⟩ := h.known
  have hplace : findRecentMut (CountEntry.ofItem item) inv.visitor inv.now = .ok (some _) :=
    findRecentMut_of_recent hfind hle hrecent
  simp only [Invocation.recordedAt, hplace]

/-- A push records the visitor at its `lastSeen`. -/
theorem Pushes.recordedAt_eq {inv : Invocation} {item : StoredItem} {request : PutRequest}
    (h : Pushes inv item request) : inv.recordedAt (some item) = inv.visitor.lastSeen := by
  simp only [Invocation.recordedAt]
  split
  · rename_i place hplace
    obtain ⟨found, hfind, -, hrecent⟩ := exists_recent_of_findRecentMut hplace
    exact absurd hrecent (h.unknown found hfind)
  · rfl

/-- A refresh adds no visitor. -/
theorem Refreshes.addsVisitor_eq_false {inv : Invocation} {item : StoredItem}
    {request : PutRequest} (h : Refreshes inv item request) :
    inv.addsVisitor (some item) = false := by
  obtain ⟨found, hfind, hle, hrecent⟩ := h.known
  have hplace : findRecentMut (CountEntry.ofItem item) inv.visitor inv.now = .ok (some _) :=
    findRecentMut_of_recent hfind hle hrecent
  simp only [Invocation.addsVisitor, hplace]

/-- A push adds its visitor. -/
theorem Pushes.addsVisitor_eq_true {inv : Invocation} {item : StoredItem}
    {request : PutRequest} (h : Pushes inv item request) :
    inv.addsVisitor (some item) = true := by
  simp only [Invocation.addsVisitor]
  split
  · rename_i place hplace
    obtain ⟨found, hfind, -, hrecent⟩ := exists_recent_of_findRecentMut hplace
    exact absurd hrecent (h.unknown found hfind)
  · rfl

/-- A refresh is not counted. -/
theorem Refreshes.counts_eq_false {inv : Invocation} {item : StoredItem} {request : PutRequest}
    (h : Refreshes inv item request) : request.counts = false := by
  simp [PutRequest.counts, h.written.expected, h.count]

/-- A push is counted. -/
theorem Pushes.counts_eq_true {inv : Invocation} {item : StoredItem} {request : PutRequest}
    (h : Pushes inv item request) : request.counts = true := by
  simp [PutRequest.counts, h.written.expected, h.count]

/-- **A put changes the count exactly if it is a creation or adds a new visitor.** -/
theorem counts_eq_addsVisitor {inv : Invocation} {loaded : Option StoredItem}
    {request : PutRequest} (h : inv.attempt loaded = .ok request) :
    request.counts = inv.addsVisitor loaded := by
  cases loaded with
  | none =>
      obtain ⟨-, rfl⟩ := attempt_none_eq_ok_iff.mp h
      rfl
  | some item =>
      rcases attempt_some_cases h with hrefresh | hpush
      · rw [hrefresh.counts_eq_false, hrefresh.addsVisitor_eq_false]
      · rw [hpush.counts_eq_true, hpush.addsVisitor_eq_true]

/-- An entry that a refresh writes is a recent entry of the item or the refreshed one. -/
theorem Refreshes.mem_recent {inv : Invocation} {item : StoredItem} {request : PutRequest}
    (h : Refreshes inv item request) {e : StoredVisitor} (he : e ∈ request.item.recent) :
    (e ∈ item.recent ∧ Recent inv.now e.time) ∨
      (e.tag = inv.visitor.tag ∧ e.time = floorToSeconds inv.now) := by
  obtain ⟨v, hv, hrecent, htag, htime⟩ := h.written.mem_recent he
  rcases mem_updateFirst hv with hold | ⟨found, hfind, rfl⟩
  · obtain ⟨s, hs, rfl⟩ := List.mem_map.mp hold
    rw [Visitor.ofStored_lastSeen, floorToSeconds_time] at htime
    obtain rfl : e = s := StoredVisitor.ext_time htag htime
    exact Or.inl ⟨hs, hrecent⟩
  · have hfound : found.tag = inv.visitor.tag := by simpa using List.find?_some hfind
    exact Or.inr ⟨htag.trans hfound, htime⟩

/-- An entry that a push writes is a recent entry of the item or the visitor's. -/
theorem Pushes.mem_recent {inv : Invocation} {item : StoredItem} {request : PutRequest}
    (h : Pushes inv item request) {e : StoredVisitor} (he : e ∈ request.item.recent) :
    (e ∈ item.recent ∧ Recent inv.now e.time) ∨
      (e.tag = inv.visitor.tag ∧ e.time = floorToSeconds inv.visitor.lastSeen) := by
  obtain ⟨v, hv, hrecent, htag, htime⟩ := h.written.mem_recent he
  rcases List.mem_append.mp hv with hold | hnew
  · obtain ⟨s, hs, rfl⟩ := List.mem_map.mp hold
    rw [Visitor.ofStored_lastSeen, floorToSeconds_time] at htime
    obtain rfl : e = s := StoredVisitor.ext_time htag htime
    exact Or.inl ⟨hs, hrecent⟩
  · obtain rfl := List.mem_singleton.mp hnew
    exact Or.inr ⟨htag, htime⟩

section Kept

variable {inv : Invocation} {item : StoredItem} {request : PutRequest}

/-- Without culling, a refresh writes its visitor at `now`. -/
theorem Refreshes.exists_own_mem (h : Refreshes inv item request)
    (hfits : (recentOnly inv.now (refreshed inv.visitor.tag inv.now
      (item.recent.map Visitor.ofStored))).length ≤ maxRecentVisitors) :
    ∃ w ∈ request.item.recent, w.tag = inv.visitor.tag ∧ w.time = floorToSeconds inv.now := by
  obtain ⟨found, hfind, -⟩ := h.known
  have htag : found.tag = inv.visitor.tag := by simpa using List.find?_some hfind
  obtain ⟨w, hw, hwtag, hwtime⟩ := h.written.exists_mem_recent hfits
    (apply_mem_updateFirst hfind) (by simp [Recent])
  exact ⟨w, hw, hwtag.trans htag, hwtime⟩

/-- Without culling, a refresh keeps every recent entry or moves it to `now`. -/
theorem Refreshes.exists_kept_mem (h : Refreshes inv item request)
    (hfits : (recentOnly inv.now (refreshed inv.visitor.tag inv.now
      (item.recent.map Visitor.ofStored))).length ≤ maxRecentVisitors)
    {e : StoredVisitor} (he : e ∈ item.recent) (hrecent : Recent inv.now e.time) :
    ∃ w ∈ request.item.recent, w.tag = e.tag ∧
      (w.time = e.time ∨ w.time = floorToSeconds inv.now) := by
  rcases mem_updateFirst_of_mem (List.mem_map_of_mem he) with hold | ⟨hnew, -⟩
  · exact ⟨e, h.written.mem_of_ofStored_mem hfits hold hrecent, rfl, Or.inl rfl⟩
  · obtain ⟨w, hw, hwtag, hwtime⟩ := h.written.exists_mem_recent hfits hnew (by simp [Recent])
    exact ⟨w, hw, hwtag, Or.inr hwtime⟩

/-- Without culling, a push writes its visitor when that is recent. -/
theorem Pushes.exists_own_mem (h : Pushes inv item request)
    (hfits : (recentOnly inv.now (item.recent.map Visitor.ofStored ++ [inv.visitor])).length ≤
      maxRecentVisitors) (hrecent : Recent inv.now inv.visitor.lastSeen) :
    ∃ w ∈ request.item.recent, w.tag = inv.visitor.tag ∧
      w.time = floorToSeconds inv.visitor.lastSeen :=
  h.written.exists_mem_recent hfits (List.mem_append_right _ List.mem_cons_self) hrecent

/-- Without culling, a push keeps every recent entry. -/
theorem Pushes.mem_of_mem (h : Pushes inv item request)
    (hfits : (recentOnly inv.now (item.recent.map Visitor.ofStored ++ [inv.visitor])).length ≤
      maxRecentVisitors) {e : StoredVisitor} (he : e ∈ item.recent)
    (hrecent : Recent inv.now e.time) : e ∈ request.item.recent :=
  h.written.mem_of_ofStored_mem hfits (List.mem_append_left _ (List.mem_map_of_mem he)) hrecent

end Kept

/-! ### When an attempt succeeds -/

/-- The put of an attempt, from the list that the visit was recorded in. -/
theorem attempt_eq_ok_of_recordVisit {inv : Invocation} {item : StoredItem}
    {recorded : CountEntry}
    (hrecord : recordVisit (CountEntry.ofItem item) inv.visitor inv.now = .ok recorded)
    (hle : ∀ v ∈ recorded.recentVisitors, v.lastSeen ≤ inv.now)
    (hrep : ∀ v ∈ cull MoreRecent maxRecentVisitors (recentOnly inv.now recorded.recentVisitors),
      Representable v.lastSeen) :
    inv.attempt (some item) = .ok ⟨some item.count, ⟨recorded.count,
      ⟨(cull MoreRecent maxRecentVisitors
        (recentOnly inv.now recorded.recentVisitors)).map Visitor.stored⟩⟩⟩ := by
  simp only [Invocation.attempt, bind_eq_ok_iff, countEntryPut_eq_ok_iff]
  exact ⟨recorded, hrecord, ⟨recorded.count,
    cull MoreRecent maxRecentVisitors (recentOnly inv.now recorded.recentVisitors)⟩,
    pruneVisitors_eq_ok_iff.mpr ⟨hle, rfl, rfl⟩, hrep, rfl⟩

/-- Preparing an update succeeds when no entry in memory is later than `now` and
all of them are representable. -/
theorem exists_attempt_eq_ok_of_recordVisit {inv : Invocation} {item : StoredItem}
    {recorded : CountEntry}
    (hrecord : recordVisit (CountEntry.ofItem item) inv.visitor inv.now = .ok recorded)
    (hle : ∀ v ∈ recorded.recentVisitors, v.lastSeen ≤ inv.now)
    (hrep : ∀ v ∈ recorded.recentVisitors, Representable v.lastSeen) :
    ∃ request, inv.attempt (some item) = .ok request :=
  ⟨_, attempt_eq_ok_of_recordVisit hrecord hle fun v hv =>
    hrep v (List.mem_of_mem_filter (mem_of_mem_cull hv))⟩

/-- **An attempt succeeds** when the visitor's times are in order and in range, and
no loaded entry is later than `now`. -/
theorem exists_attempt_eq_ok {inv : Invocation} {loaded : Option StoredItem}
    (hseen : inv.visitor.lastSeen ≤ inv.now) (hrepSeen : Representable inv.visitor.lastSeen)
    (hrepNow : Representable inv.now) (hloaded : ∀ e ∈ entriesOf loaded, e.time ≤ inv.now) :
    ∃ request, inv.attempt loaded = .ok request := by
  cases loaded with
  | none => exact ⟨_, attempt_none_eq_ok_iff.mpr ⟨hrepSeen, rfl⟩⟩
  | some item =>
      have hold : ∀ v ∈ item.recent.map Visitor.ofStored,
          v.lastSeen ≤ inv.now ∧ Representable v.lastSeen := by
        intro v hv
        obtain ⟨e, he, rfl⟩ := List.mem_map.mp hv
        exact ⟨hloaded e he, representable_time e⟩
      -- Either way no entry in memory is later than `now`, which is all that can panic.
      by_cases hknown : ∃ found, (item.recent.map Visitor.ofStored).find? (isTag inv.visitor.tag) =
          some found ∧ Recent inv.now found.lastSeen
      · obtain ⟨found, hfind, hrecent⟩ := hknown
        have hle := (hold found (List.mem_of_find?_eq_some hfind)).1
        have hmemory : ∀ v ∈ refreshed inv.visitor.tag inv.now (item.recent.map Visitor.ofStored),
            v.lastSeen ≤ inv.now ∧ Representable v.lastSeen := by
          intro v hv
          rcases mem_updateFirst hv with hmem | ⟨w, -, rfl⟩
          · exact hold v hmem
          · exact ⟨le_rfl, hrepNow⟩
        exact exists_attempt_eq_ok_of_recordVisit (recordVisit_of_recent hfind hle hrecent)
          (fun v hv => (hmemory v hv).1) fun v hv => (hmemory v hv).2
      · have hmemory : ∀ v ∈ item.recent.map Visitor.ofStored ++ [inv.visitor],
            v.lastSeen ≤ inv.now ∧ Representable v.lastSeen := by
          intro v hv
          rcases List.mem_append.mp hv with hmem | hnew
          · exact hold v hmem
          · rw [List.mem_singleton.mp hnew]
            exact ⟨hseen, hrepSeen⟩
        have hunknown : ∀ found, (CountEntry.ofItem item).recentVisitors.find?
            (isTag inv.visitor.tag) = some found →
              found.lastSeen ≤ inv.now ∧ ¬ Recent inv.now found.lastSeen :=
          fun found hfind => ⟨(hold found (List.mem_of_find?_eq_some hfind)).1,
            fun hrecent => hknown ⟨found, hfind, hrecent⟩⟩
        exact exists_attempt_eq_ok_of_recordVisit (recordVisit_of_not_recent hunknown)
          (fun v hv => (hmemory v hv).1) fun v hv => (hmemory v hv).2

end VisitorCounter

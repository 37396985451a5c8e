import VisitorCounter.Store

/-!
# Storing and loading an entry

An entry is written as a decimal count and a CBOR blob and read back from them.
What comes back is the entry with its times rounded down to whole seconds, and
writing that again changes nothing.

## Main Definitions

* `StoredItem.attributes`: the attributes that hold an item
* `CountEntry.rounded`: an entry with its times rounded down

## Main Results

* `parseU64_u64ToString`: a count is read back from its decimal text
* `ofAttributes_attributes`: an item is read back from its attributes
* `run_getCountEntry`, `run_tryPutNewCountEntry`, `run_tryPutCountEntry`: the
  methods of the store on a table
* `entry_round_trip`: the two directions of the round trip
-/

namespace VisitorCounter

open Cbor

/-! ### The count -/

/-- A text that starts with a digit has no sign to drop. -/
theorem stripPlus_of_isDigit {digits : List Char} (h : ∀ c ∈ digits, c.isDigit = true) :
    stripPlus digits = digits := by
  unfold stripPlus
  split
  · exact absurd (h '+' List.mem_cons_self) (by decide)
  · rfl

/-- A count is read back from its decimal text. -/
theorem parseU64_u64ToString (n : UInt64) : parseU64 (u64ToString n) = some n := by
  have hdigits : ∀ c ∈ Nat.toDigits 10 n.toNat, c.isDigit = true := fun c hc =>
    Nat.isDigit_of_mem_toDigits (by omega) (by omega) hc
  have hall : (Nat.toDigits 10 n.toNat).all Char.isDigit = true := List.all_eq_true.mpr hdigits
  simp only [parseU64, u64ToString, Nat.toList_repr, stripPlus_of_isDigit hdigits,
    Nat.ofDigitChars_ten_toDigits]
  rw [if_pos ⟨Nat.toDigits_ne_nil, hall, n.toNat_lt⟩, UInt64.ofNat_toNat]

/-- The literal count of a creation put. -/
theorem u64ToString_one : u64ToString 1 = "1" := by decide

/-! ### The item -/

/-- The attributes that hold an item under a counter's name. -/
def StoredItem.attributes (ciborium : Ciborium) (name : String) (item : StoredItem) : Item :=
  [("key", .s name), ("count", .n (u64ToString item.count)),
    ("value", .b (item.value.toCbor ciborium))]

@[simp] theorem countAttribute_attributes (ciborium : Ciborium) (name : String)
    (item : StoredItem) : countAttribute (item.attributes ciborium name) = .ok item.count := by
  simp [countAttribute, StoredItem.attributes, List.lookup_cons, parseU64_u64ToString]

theorem valueAttribute_attributes (ciborium : Ciborium) (name : String) {item : StoredItem}
    (h : item.recent.length < 2 ^ 64) :
    valueAttribute ciborium (item.attributes ciborium name) = .ok item.value := by
  simp [valueAttribute, StoredItem.attributes, List.lookup_cons, StoredCountEntry.fromCbor,
    StoredCountEntry.toCbor, ciborium.fromReader_intoWriter item.value h]

/-- **An item is read back from its attributes.** -/
theorem ofAttributes_attributes (ciborium : Ciborium) (name : String) {item : StoredItem}
    (h : item.recent.length < 2 ^ 64) :
    CountEntry.ofAttributes ciborium (item.attributes ciborium name) =
      .ok (CountEntry.ofItem item) := by
  simp [CountEntry.ofAttributes, valueAttribute_attributes ciborium name h, bind, Except.bind,
    pure, Except.pure, CountEntry.ofItem]

/-- The item of an update put holds what the put writes. -/
theorem countEntryInput_eq_ok_iff {ciborium : Ciborium} {tableName name : String}
    {initialCount : UInt64} {entry : CountEntry} {input : PutItemInput} :
    countEntryInput ciborium tableName name initialCount entry = .ok input ↔
      ∃ request, countEntryPut initialCount entry = .ok request ∧
        input = {
          tableName := tableName
          conditionExpression := "#c = :count"
          expressionAttributeNames := [("#c", "count")]
          expressionAttributeValues := [(":count", .n (u64ToString initialCount))]
          item := request.item.attributes ciborium name } := by
  simp only [countEntryInput, countEntryPut, bind_eq_ok_iff, pure, Except.pure, Except.ok.injEq]
  constructor
  · rintro ⟨stored, hstored, rfl⟩
    exact ⟨_, ⟨stored, hstored, rfl⟩, rfl⟩
  · rintro ⟨_, ⟨stored, hstored, rfl⟩, rfl⟩
    exact ⟨stored, hstored, rfl⟩

/-- The item of a creation put holds what the put writes. -/
theorem newCountEntryInput_eq_ok_iff {ciborium : Ciborium} {tableName name : String}
    {visitor : Visitor} {input : PutItemInput} :
    newCountEntryInput ciborium tableName name visitor = .ok input ↔
      ∃ request, newCountEntryPut visitor = .ok request ∧
        input = {
          tableName := tableName
          conditionExpression := "attribute_not_exists(#k)"
          expressionAttributeNames := [("#k", "key")]
          expressionAttributeValues := []
          item := request.item.attributes ciborium name } := by
  simp only [newCountEntryInput, newCountEntryPut, bind_eq_ok_iff, pure, Except.pure,
    Except.ok.injEq, ← u64ToString_one]
  constructor
  · rintro ⟨stored, hstored, rfl⟩
    exact ⟨_, ⟨stored, hstored, rfl⟩, rfl⟩
  · rintro ⟨_, ⟨stored, hstored, rfl⟩, rfl⟩
    exact ⟨stored, hstored, rfl⟩

/-! ### The methods of the store on a table -/

section Methods

variable {σ : Type} {db : DynamoTable σ} {ciborium : Ciborium} {tableName name : String} {s : σ}

/-- A program goes on with the result and the state of its first step. -/
theorem run_bind_of_ok {ε α β : Type} {x : ExceptT ε (StateM σ) α}
    {f : α → ExceptT ε (StateM σ) β} {a : α} {s' : σ} (h : x.run.run s = (.ok a, s')) :
    (x >>= f).run.run s = (f a).run.run s' := by
  rw [ExceptT.run_bind]
  show StateT.run (match (x.run.run s).1 with
    | .ok a => (f a).run
    | .error e => pure (.error e)) (x.run.run s).2 = _
  rw [h]

/-- A program stops at the first step that fails. -/
theorem run_bind_of_error {ε α β : Type} {x : ExceptT ε (StateM σ) α}
    {f : α → ExceptT ε (StateM σ) β} {e : ε} {s' : σ} (h : x.run.run s = (.error e, s')) :
    (x >>= f).run.run s = (.error e, s') := by
  rw [ExceptT.run_bind]
  show StateT.run (match (x.run.run s).1 with
    | .ok a => (f a).run
    | .error e => pure (.error e)) (x.run.run s).2 = _
  rw [h]
  rfl

theorem run_panicking_bind_of_ok {α β : Type} {x : Except Panic α} {a : α}
    {f : α → ExceptT Failure (StateM σ) β} (h : x = .ok a) (s : σ) :
    (panicking x >>= f).run.run s = (f a).run.run s := by
  subst h
  exact run_bind_of_ok rfl

theorem run_panicking_bind_of_error {α β : Type} {x : Except Panic α} {panic : Panic}
    {f : α → ExceptT Failure (StateM σ) β} (h : x = .error panic) (s : σ) :
    (panicking x >>= f).run.run s = (.error (.panic panic), s) := by
  subst h
  exact run_bind_of_error rfl

/-- A call of the client, lifted into a method. -/
theorem run_lift {ε α : Type} {x : StateM σ α} {a : α} {s' : σ} (h : x.run s = (a, s')) :
    (liftM x : ExceptT ε (StateM σ) α).run.run s = (.ok a, s') := by
  show (fun r => (Except.ok r.1, r.2)) (x.run s) = _
  rw [h]

/-- `get_count_entry` loads the item of the counter. -/
theorem run_getCountEntry {stored : Option StoredItem}
    (hstored : db.items s name = stored.map (StoredItem.attributes ciborium name))
    (hfits : ∀ item ∈ stored, item.recent.length < 2 ^ 64) :
    ((db.store ciborium tableName).getCountEntry name).run.run s =
      (.ok (stored.map CountEntry.ofItem), s) := by
  refine (run_bind_of_ok (run_lift (db.getItem_run _ name s rfl))).trans ?_
  refine (run_bind_of_ok rfl).trans ?_
  simp only [hstored]
  cases stored with
  | none => rfl
  | some item =>
      simp only [Option.map_some]
      refine (run_bind_of_ok ?_).trans rfl
      rw [DynamoTable.store_ciborium, ofAttributes_attributes ciborium name (hfits item rfl)]
      rfl

/-- The end of both put methods, when the condition of their input holds. -/
theorem run_put {input : PutItemInput} (hkey : input.item.lookup "key" = some (.s name))
    (hholds : conditionHolds input (db.items s name) = true) :
    ∃ s', (do
      let input ← panicking (.ok input)
      propagate (putReply (← db.client.putItem input)) :
        ExceptT Failure (StateM σ) Bool).run.run s = (.ok true, s') ∧
      db.items s' = Function.update (db.items s) name (some input.item) := by
  obtain ⟨s', hput, hitems⟩ := db.putItem_run input name s hkey hholds
  exact ⟨s', (run_bind_of_ok rfl).trans ((run_bind_of_ok (run_lift hput)).trans rfl), hitems⟩

/-- `try_put_new_count_entry` creates an item that is absent. -/
theorem run_tryPutNewCountEntry {visitor : Visitor} {request : PutRequest}
    (hput : newCountEntryPut visitor = .ok request) (hnone : db.items s name = none) :
    ∃ s', ((db.store ciborium tableName).tryPutNewCountEntry name visitor).run.run s =
        (.ok true, s') ∧
      db.items s' =
        Function.update (db.items s) name (some (request.item.attributes ciborium name)) := by
  have hinput : newCountEntryInput ciborium tableName name visitor = .ok _ :=
    newCountEntryInput_eq_ok_iff.mpr ⟨request, hput, rfl⟩
  rw [Store.tryPutNewCountEntry, DynamoTable.store_ciborium, DynamoTable.store_tableName, hinput]
  exact run_put rfl (by rw [hnone]; rfl)

/-- `try_put_count_entry` replaces an item with the expected count. -/
theorem run_tryPutCountEntry {initialCount : UInt64} {entry : CountEntry} {request : PutRequest}
    {before : Item} (hput : countEntryPut initialCount entry = .ok request)
    (hbefore : db.items s name = some before)
    (hcount : before.lookup "count" = some (.n (u64ToString initialCount))) :
    ∃ s', ((db.store ciborium tableName).tryPutCountEntry name initialCount entry).run.run s =
        (.ok true, s') ∧
      db.items s' =
        Function.update (db.items s) name (some (request.item.attributes ciborium name)) := by
  have hinput : countEntryInput ciborium tableName name initialCount entry = .ok _ :=
    countEntryInput_eq_ok_iff.mpr ⟨request, hput, rfl⟩
  rw [Store.tryPutCountEntry, DynamoTable.store_ciborium, DynamoTable.store_tableName, hinput]
  refine run_put rfl ?_
  rw [hbefore]
  show (before.lookup "count" == some (AttributeValue.n (u64ToString initialCount))) = true
  rw [hcount]
  exact beq_self_eq_true _

end Methods

/-! ### The round trip -/

/-- The visitors of an entry as they come back from storage. -/
def CountEntry.rounded (entry : CountEntry) : CountEntry where
  count := entry.count
  recentVisitors :=
    entry.recentVisitors.map fun v => { v with lastSeen := floorToSeconds v.lastSeen }

/-- Loading the stored form of an entry rounds its times down. -/
theorem ofItem_of_representable {entry : CountEntry}
    (hrep : ∀ v ∈ entry.recentVisitors, Representable v.lastSeen) :
    CountEntry.ofItem ⟨entry.count, ⟨entry.recentVisitors.map Visitor.stored⟩⟩ = entry.rounded := by
  simp only [CountEntry.ofItem, CountEntry.ofStored, CountEntry.rounded, List.map_map,
    CountEntry.mk.injEq, true_and]
  refine List.map_congr_left fun v hv => ?_
  have htime := Visitor.stored_time (hrep v hv)
  rw [← Visitor.ofStored_lastSeen] at htime
  simp only [Function.comp_apply, ← htime]
  rfl

/-- A loaded item is put back as it was. -/
theorem countEntryPut_ofItem (initialCount : UInt64) (item : StoredItem) :
    countEntryPut initialCount (CountEntry.ofItem item) = .ok ⟨some initialCount, item⟩ := by
  refine countEntryPut_eq_ok_iff.mpr ⟨?_, ?_⟩
  · intro v hv
    obtain ⟨s, -, rfl⟩ := List.mem_map.mp hv
    exact representable_time s
  · rw [CountEntry.ofItem_recentVisitors, map_stored_ofStored]
    rfl

/-- **Storing and loading an entry loses nothing but sub-second time.**  An entry
with representable times is written without a panic over an item with the
expected count, and read back with its count and, in the same order, its tags and
rounded times; writing what was read writes the same item.  Conversely every
stored list is loaded and written back as it was. -/
theorem entry_round_trip {σ : Type} (db : DynamoTable σ) (ciborium : Ciborium)
    (tableName name : String) :
    (∀ (initialCount : UInt64) (entry : CountEntry) (s : σ) (before : Item),
      entry.recentVisitors.length < 2 ^ 64 →
      (∀ v ∈ entry.recentVisitors, Representable v.lastSeen) →
      db.items s name = some before →
      before.lookup "count" = some (.n (u64ToString initialCount)) →
        ∃ s' s'' item,
          ((db.store ciborium tableName).tryPutCountEntry name initialCount entry).run.run s
            = (.ok true, s') ∧
          db.items s' name = some item ∧
          ((db.store ciborium tableName).getCountEntry name).run.run s'
            = (.ok (some entry.rounded), s') ∧
          ((db.store ciborium tableName).tryPutCountEntry name entry.count entry.rounded).run.run s'
            = (.ok true, s'') ∧
          db.items s'' name = some item) ∧
    (∀ (item : StoredItem) (s : σ), item.recent.length < 2 ^ 64 →
      db.items s name = some (item.attributes ciborium name) →
        ∃ loaded s',
          ((db.store ciborium tableName).getCountEntry name).run.run s = (.ok (some loaded), s) ∧
          ((db.store ciborium tableName).tryPutCountEntry name loaded.count loaded).run.run s
            = (.ok true, s') ∧
          db.items s' name = some (item.attributes ciborium name)) := by
  -- Loading an item and putting it back leaves it as it was.
  have hback : ∀ (item : StoredItem) (s : σ), item.recent.length < 2 ^ 64 →
      db.items s name = some (item.attributes ciborium name) → ∃ s',
        ((db.store ciborium tableName).getCountEntry name).run.run s =
          (.ok (some (CountEntry.ofItem item)), s) ∧
        ((db.store ciborium tableName).tryPutCountEntry name item.count
          (CountEntry.ofItem item)).run.run s = (.ok true, s') ∧
        db.items s' name = some (item.attributes ciborium name) := by
    intro item s hfits hitem
    obtain ⟨s', hput, hitems⟩ : ∃ s',
        ((db.store ciborium tableName).tryPutCountEntry name item.count
          (CountEntry.ofItem item)).run.run s = (.ok true, s') ∧ _ :=
      run_tryPutCountEntry (countEntryPut_ofItem item.count item) hitem rfl
    have hstored : db.items s name = (some item).map (StoredItem.attributes ciborium name) := hitem
    refine ⟨s', ?_, hput, by rw [hitems, Function.update_self]⟩
    exact run_getCountEntry hstored (by rintro _ ⟨⟩; exact hfits)
  constructor
  · intro initialCount entry s before hfits hrep hbefore hcount
    have hrequest : countEntryPut initialCount entry
        = .ok ⟨some initialCount, ⟨entry.count, ⟨entry.recentVisitors.map Visitor.stored⟩⟩⟩ :=
      countEntryPut_eq_ok_iff.mpr ⟨hrep, rfl⟩
    obtain ⟨s', hput, hitems⟩ : ∃ s',
        ((db.store ciborium tableName).tryPutCountEntry name initialCount entry).run.run s =
          (.ok true, s') ∧ _ :=
      run_tryPutCountEntry hrequest hbefore hcount
    have hitem : db.items s' name = some (StoredItem.attributes ciborium name
        ⟨entry.count, ⟨entry.recentVisitors.map Visitor.stored⟩⟩) := by
      rw [hitems, Function.update_self]
    obtain ⟨s'', hget, hagain, hsame⟩ := hback _ s' (by simpa using hfits) hitem
    rw [ofItem_of_representable hrep] at hget hagain
    exact ⟨s', s'', _, hput, hitem, hget, hagain, hsame⟩
  · intro item s hfits hitem
    obtain ⟨s', hget, hput, hsame⟩ := hback item s hfits hitem
    exact ⟨_, s', hget, hput, hsame⟩

/-- The round trip of an entry with one visitor seen within a second. -/
theorem entry_round_trip_one_visitor :
    ∃ s : String → Option Item,
      ((DynamoTable.reference.store Ciborium.reference "table").getCountEntry "default").run.run s
        = (.ok (some ⟨7, [⟨1234, 1_690_001_000_000_000_000⟩]⟩), s) := by
  obtain ⟨s, -, -, -, -, hload, -⟩ :=
    (entry_round_trip DynamoTable.reference Ciborium.reference "table" "default").1 6
      ⟨7, [⟨1234, 1_690_001_000_500_000_000⟩]⟩
      (fun _ => some ((⟨6, ⟨[]⟩⟩ : StoredItem).attributes Ciborium.reference "default")) _
      (by decide) (by decide) rfl rfl
  exact ⟨s, hload⟩

end VisitorCounter

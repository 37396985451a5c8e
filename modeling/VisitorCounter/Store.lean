import VisitorCounter.Attempt
import VisitorCounter.Library.Cbor
import Std.Data.String.ToNat

/-!
# The store

`Store` keeps one DynamoDB item per counter: the counter's name under `key`, the
count as a decimal number, the recent visitors as a CBOR blob.  This module has
the items and requests as the store builds and reads them, and the methods of
`Store` as programs over any monad that offers the two DynamoDB calls, which is
how the source mocks them in its tests.

## Main Definitions

* `AttributeValue`, `Item`, `GetItemInput`, `PutItemInput`, `Dynamo`: the client
* `Ciborium`: what the store relies on of the `ciborium` crate
* `DynamoTable`: what it relies on of a table without failures
* `Store.getCountEntry`, `Store.tryPutNewCountEntry`, `Store.tryPutCountEntry`,
  `Store.maybeIncrementVisitors`: the methods

## Design Notes

The `ciborium` crate is a parameter: its writer encodes as `VisitorCounter.Library.Cbor`
does, and its reader reads back what the writer wrote; `Ciborium.reference` is an
instance.  Likewise the DynamoDB client is a parameter, and `DynamoTable.reference`
is a table with the behaviour the store relies on.  A `usize` has 64 bits, as on the
deployment target.
-/

namespace VisitorCounter

open Cbor

/-- `AttributeValue`, with one case for all the kinds the store does not use. -/
inductive AttributeValue where
  | s (value : String)
  | n (value : String)
  | b (value : List UInt8)
  | other
deriving DecidableEq, Repr

/-- The attributes of an item under their names. -/
abbrev Item := List (String × AttributeValue)

/-! ### The value attribute -/

/-- The derived encoding of a visitor: a map with the keys `g` and `t`. -/
def StoredVisitor.codec : Codec StoredVisitor :=
  (Codec.map2 "g" Codec.u32 "t" Codec.u32).equiv
    { toFun := fun v => (v.tag, v.lastSeen)
      invFun := fun p => ⟨p.1, p.2⟩
      left_inv := fun _ => rfl
      right_inv := fun _ => rfl }

/-- The derived encoding of an entry: a map with the key `v`. -/
def StoredCountEntry.codec : Codec StoredCountEntry :=
  (Codec.map1 "v" StoredVisitor.codec.array).equiv
    { toFun := fun e => e.recentVisitors
      invFun := fun l => ⟨l⟩
      left_inv := fun _ => rfl
      right_inv := fun _ => rfl }

/-- `ciborium::into_writer` to a vector, which does not fail, and `ciborium::from_reader`
at `StoredCountEntry`, with what the store relies on.  The length bound is that of
every `Vec`. -/
structure Ciborium where
  intoWriter : StoredCountEntry → List UInt8
  fromReader : List UInt8 → Except BoxError StoredCountEntry
  /-- Definite-length maps under the renamed keys, a definite-length array, and
  unsigned integers in their shortest form. -/
  intoWriter_eq : ∀ entry : StoredCountEntry, entry.recentVisitors.length < 2 ^ 64 →
    intoWriter entry = StoredCountEntry.codec.encode entry
  /-- What was written is read back. -/
  fromReader_intoWriter : ∀ entry : StoredCountEntry, entry.recentVisitors.length < 2 ^ 64 →
    fromReader (intoWriter entry) = .ok entry

/-- The writer of the codec, and a reader for exactly what it writes. -/
def Ciborium.reference : Ciborium where
  intoWriter := StoredCountEntry.codec.encode
  fromReader bytes :=
    match StoredCountEntry.codec.decode bytes with
    | some (entry, _) => .ok entry
    | none => .error (.cbor "malformed entry")
  intoWriter_eq _ _ := rfl
  fromReader_intoWriter entry h := by
    have hdecode := StoredCountEntry.codec.decode_encode entry [] ⟨h, fun _ _ => ⟨trivial, trivial⟩⟩
    rw [List.append_nil] at hdecode
    rw [hdecode]

/-- `StoredCountEntry::to_cbor`. -/
def StoredCountEntry.toCbor (ciborium : Ciborium) (entry : StoredCountEntry) : List UInt8 :=
  ciborium.intoWriter entry

/-- `StoredCountEntry::from_cbor`. -/
def StoredCountEntry.fromCbor (ciborium : Ciborium) (cbor : List UInt8) :
    Except BoxError StoredCountEntry :=
  ciborium.fromReader cbor

/-! ### The count attribute -/

/-- `u64::to_string`. -/
def u64ToString (n : UInt64) : String := n.toNat.repr

/-- The digits of a number text, without its optional plus sign. -/
def stripPlus : List Char → List Char
  | '+' :: digits => digits
  | digits => digits

/-- `str::parse::<u64>`: an optional plus sign, at least one decimal digit, no overflow. -/
def parseU64 (s : String) : Option UInt64 :=
  let digits := stripPlus s.toList
  if digits ≠ [] ∧ digits.all Char.isDigit ∧ Nat.ofDigitChars 10 digits 0 < 2 ^ 64 then
    some (UInt64.ofNat (Nat.ofDigitChars 10 digits 0))
  else none

/-! ### Requests and replies -/

/-- The input of a `GetItem` call. -/
structure GetItemInput where
  tableName : String
  key : Item
deriving DecidableEq, Repr

/-- The output of a `GetItem` call. -/
structure GetItemOutput where
  item : Option Item
deriving DecidableEq, Repr

/-- The input of a `PutItem` call. -/
structure PutItemInput where
  tableName : String
  conditionExpression : String
  expressionAttributeNames : List (String × String)
  expressionAttributeValues : List (String × AttributeValue)
  item : Item
deriving DecidableEq, Repr

/-- The error of a `PutItem` call, after `into_service_error`. -/
inductive PutItemError where
  | conditionalCheckFailed
  | other (error : BoxError)
deriving DecidableEq, Repr

/-- The trait of the two DynamoDB calls. -/
structure Dynamo (m : Type → Type) where
  getItem : GetItemInput → m (Except BoxError GetItemOutput)
  putItem : PutItemInput → m (Except PutItemError Unit)

/-- The two conditions the store puts under, on the item that is there:
`attribute_not_exists(#k)` and `#c = :count`. -/
def conditionHolds (input : PutItemInput) (current : Option Item) : Bool :=
  match input.conditionExpression with
  | "attribute_not_exists(#k)" =>
      match input.expressionAttributeNames.lookup "#k" with
      | some field => (current.bind fun item => item.lookup field).isNone
      | none => false
  | "#c = :count" =>
      match input.expressionAttributeNames.lookup "#c",
        input.expressionAttributeValues.lookup ":count" with
      | some field, some value => (current.bind fun item => item.lookup field) == some value
      | _, _ => false
  | _ => false

/-- A table without failures, with what the store relies on of DynamoDB: a get
returns the item under its key, a put replaces the item under its key when its
condition holds, and nothing else changes an item. -/
structure DynamoTable (σ : Type) where
  client : Dynamo (StateM σ)
  items : σ → String → Option Item
  getItem_run : ∀ input name s, input.key.lookup "key" = some (.s name) →
    (client.getItem input).run s = (.ok { item := items s name }, s)
  putItem_run : ∀ input name s, input.item.lookup "key" = some (.s name) →
    conditionHolds input (items s name) = true →
      ∃ s', (client.putItem input).run s = (.ok (), s') ∧
        items s' = Function.update (items s) name (some input.item)
  putItem_run_of_not : ∀ input name s, input.item.lookup "key" = some (.s name) →
    conditionHolds input (items s name) = false →
      (client.putItem input).run s = (.error .conditionalCheckFailed, s)

/-- A put into a function from keys to items. -/
def putInto (input : PutItemInput) (items : String → Option Item) :
    Except PutItemError Unit × (String → Option Item) :=
  match input.item.lookup "key" with
  | some (.s name) =>
      if conditionHolds input (items name) then
        (.ok (), Function.update items name (some input.item))
      else (.error .conditionalCheckFailed, items)
  | _ => (.error (.other (.sdk "the key is not a string")), items)

/-- A table that is a function from keys to items. -/
def DynamoTable.reference : DynamoTable (String → Option Item) where
  client := {
    getItem := fun input => do
      let items ← get
      match input.key.lookup "key" with
      | some (.s name) => return .ok { item := items name }
      | _ => return .error (.sdk "the key is not a string")
    putItem := fun input => modifyGet (putInto input) }
  items := id
  getItem_run input name s hkey := by
    simp only [hkey]
    rfl
  putItem_run input name s hkey hholds := by
    refine ⟨_, ?_, rfl⟩
    show putInto input s = _
    rw [putInto, hkey]
    exact if_pos hholds
  putItem_run_of_not input name s hkey hholds := by
    show putInto input s = _
    rw [putInto, hkey]
    exact if_neg (by simpa using hholds)

/-- How a method of the store stops early: a panic, or an error passed on by `?`. -/
inductive Failure where
  | panic (panic : Panic)
  | error (error : BoxError)
deriving DecidableEq, Repr

/-- The abstraction over count storage. -/
structure Store (m : Type → Type) where
  client : Dynamo m
  ciborium : Ciborium
  tableName : String

variable {m : Type → Type} [Monad m]

/-- Code that may panic. -/
def panicking {α : Type} : Except Panic α → ExceptT Failure m α
  | .ok a => pure a
  | .error panic => throw (.panic panic)

/-- The `?` operator. -/
def propagate {α : Type} : Except BoxError α → ExceptT Failure m α
  | .ok a => pure a
  | .error error => throw (.error error)

/-- The `count` attribute of an item. -/
def countAttribute (item : Item) : Except BoxError UInt64 :=
  match item.lookup "count" with
  | none => .error (.message "item was missing a count attribute")
  | some (.n value) =>
      match parseU64 value with
      | some count => .ok count
      | none => .error (.message "failed to parse count")
  | some _ => .error (.message "count is not a number")

/-- The `value` attribute of an item. -/
def valueAttribute (ciborium : Ciborium) (item : Item) : Except BoxError StoredCountEntry :=
  match item.lookup "value" with
  | none => .error (.message "item was missing a value attribute")
  | some (.b value) => StoredCountEntry.fromCbor ciborium value
  | some _ => .error (.message "value was not a blob")

/-- The attributes of an item as an entry: the second half of `get_count_entry`. -/
def CountEntry.ofAttributes (ciborium : Ciborium) (item : Item) : Except BoxError CountEntry := do
  let count ← countAttribute item
  let value ← valueAttribute ciborium item
  return { CountEntry.ofStored value with count := count }

/-- The input of the get of `get_count_entry`. -/
def countEntryGet (tableName name : String) : GetItemInput where
  tableName := tableName
  key := [("key", .s name)]

/-- The input of the put of `try_put_new_count_entry`. -/
def newCountEntryInput (ciborium : Ciborium) (tableName name : String) (visitor : Visitor) :
    Except Panic PutItemInput := do
  let stored ← StoredVisitor.ofVisitor visitor
  let value := StoredCountEntry.toCbor ciborium { recentVisitors := [stored] }
  return {
    tableName := tableName
    conditionExpression := "attribute_not_exists(#k)"
    expressionAttributeNames := [("#k", "key")]
    expressionAttributeValues := []
    item := [("key", .s name), ("count", .n "1"), ("value", .b value)] }

/-- The input of the put of `try_put_count_entry`. -/
def countEntryInput (ciborium : Ciborium) (tableName name : String) (initialCount : UInt64)
    (entry : CountEntry) : Except Panic PutItemInput := do
  let stored ← StoredCountEntry.ofCountEntry entry
  let value := stored.toCbor ciborium
  return {
    tableName := tableName
    conditionExpression := "#c = :count"
    expressionAttributeNames := [("#c", "count")]
    expressionAttributeValues := [(":count", .n (u64ToString initialCount))]
    item := [("key", .s name), ("count", .n (u64ToString entry.count)), ("value", .b value)] }

/-- The end of the two put methods: a failed condition is `false`, any other error is passed on. -/
def putReply : Except PutItemError Unit → Except BoxError Bool
  | .ok _ => .ok true
  | .error .conditionalCheckFailed => .ok false
  | .error (.other error) => .error error

namespace Store

/-- `Store::get_count_entry`. -/
def getCountEntry (store : Store m) (name : String) : ExceptT Failure m (Option CountEntry) := do
  let output ← propagate (← store.client.getItem (countEntryGet store.tableName name))
  match output.item with
  | none => return none
  | some item =>
      let entry ← propagate (CountEntry.ofAttributes store.ciborium item)
      return some entry

/-- `Store::try_put_new_count_entry`. -/
def tryPutNewCountEntry (store : Store m) (name : String) (visitor : Visitor) :
    ExceptT Failure m Bool := do
  let input ← panicking (newCountEntryInput store.ciborium store.tableName name visitor)
  propagate (putReply (← store.client.putItem input))

/-- `Store::try_put_count_entry`. -/
def tryPutCountEntry (store : Store m) (name : String) (initialCount : UInt64)
    (entry : CountEntry) : ExceptT Failure m Bool := do
  let input ← panicking (countEntryInput store.ciborium store.tableName name initialCount entry)
  propagate (putReply (← store.client.putItem input))

/-- The retry loop of `maybe_increment_visitors` with the given number of attempts left. -/
def attempts (store : Store m) (visitor : Visitor) (name : String) (now : ℤ) :
    ℕ → ExceptT Failure m UInt64
  | 0 => throw (.error maxAttemptsExceeded)
  | left + 1 => do
      match ← store.getCountEntry name with
      | some countEntry =>
          let initialCount := countEntry.count
          let countEntry ← panicking (recordVisit countEntry visitor now)
          let countEntry ← panicking (pruneVisitors countEntry now maxRecentVisitors)
          if ← store.tryPutCountEntry name initialCount countEntry then
            return countEntry.count
          else
            store.attempts visitor name now left
      | none =>
          if ← store.tryPutNewCountEntry name visitor then
            return 1
          else
            store.attempts visitor name now left

/-- `Store::maybe_increment_visitors`. -/
def maybeIncrementVisitors (store : Store m) (visitor : Visitor) (name : String) (now : ℤ) :
    ExceptT Failure m UInt64 :=
  store.attempts visitor name now maxAttemptsForOptimisticLocking

end Store

/-- A store on a table. -/
def DynamoTable.store {σ : Type} (db : DynamoTable σ) (ciborium : Ciborium)
    (tableName : String) : Store (StateM σ) where
  client := db.client
  ciborium := ciborium
  tableName := tableName

section Table

variable {σ : Type} {db : DynamoTable σ} {ciborium : Ciborium} {tableName : String}

@[simp] theorem DynamoTable.store_ciborium :
    (db.store ciborium tableName).ciborium = ciborium := rfl

@[simp] theorem DynamoTable.store_tableName :
    (db.store ciborium tableName).tableName = tableName := rfl

end Table

end VisitorCounter

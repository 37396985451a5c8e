import VisitorCounter.RoundTrip

/-!
# Item sizes

DynamoDB limits an item to 400 KB.  The store reserves some of it for the key
and the count, and derives from the rest how many visitors it keeps.  The bound
is met exactly: a visitor takes up to 15 bytes, and the map, key and array
headers take 6.

## Main Definitions

* `AttributeValue.size`, `itemSize`: what DynamoDB counts
* `Fits`: the limits on a put
* `Keeps`: what a program keeps of the state of its client
* `recording`: a client that records the puts it is asked for

## Main Results

* `length_toCbor_le`: the size of a list, in terms of its length
* `utf8ByteSize_u64ToString_le`: a count has at most 20 digits
* `fits_attributes`: an item with a list of at most `maxRecentVisitors` fits
* `keeps_attempts`: a rule for the retry loop, on any client
-/

namespace VisitorCounter

open Cbor RecencyList

/-- The size of a value: the UTF-8 length of a text, the digits of a number, the
length of a blob. -/
def AttributeValue.size : AttributeValue → ℕ
  | .s value => value.utf8ByteSize
  | .n value => value.utf8ByteSize
  | .b value => value.length
  | .other => 0

/-- The size of an item: its attribute names and their values. -/
def itemSize (item : Item) : ℕ := (item.map fun a => a.1.utf8ByteSize + a.2.size).sum

/-- The limits on a put: the blob fits the space that is not reserved, and with a
name of at most 900 bytes the whole item fits. -/
structure Fits (name : String) (input : PutItemInput) : Prop where
  blob : ∃ blob, input.item.lookup "value" = some (.b blob) ∧
    blob.length ≤ dynamoMaxItemSizeBytes - reservedNonValueSizeBytes
  item : name.utf8ByteSize ≤ 900 → itemSize input.item ≤ dynamoMaxItemSizeBytes

/-! ### The value -/

theorem length_encode_storedVisitor_le (v : StoredVisitor) :
    (StoredVisitor.codec.encode v).length ≤ sizeSingleVisitorBytes := by
  have htag := Codec.length_encode_u32_le v.tag
  have hseen := Codec.length_encode_u32_le v.lastSeen
  have hmark : (head 5 2).length = 1 := rfl
  have hg : (Codec.text "g").length = 2 := by decide
  have ht : (Codec.text "t").length = 2 := by decide
  show (head 5 2 ++ ((Codec.text "g" ++ Codec.u32.encode v.tag) ++
    (Codec.text "t" ++ Codec.u32.encode v.lastSeen))).length ≤ _
  simp only [List.length_append, hmark, hg, ht, sizeSingleVisitorBytes]
  omega

/-- The size of an encoded list of at most `maxRecentVisitors` visitors. -/
theorem length_toCbor_le (ciborium : Ciborium) {entry : StoredCountEntry}
    (h : entry.recentVisitors.length ≤ maxRecentVisitors) :
    (entry.toCbor ciborium).length ≤ 6 + entry.recentVisitors.length * sizeSingleVisitorBytes := by
  rw [maxRecentVisitors_eq] at h
  have hhead : (head 4 entry.recentVisitors.length).length ≤ 3 :=
    length_head_le_of_lt_2_16 (by omega)
  have harray : (StoredVisitor.codec.array.encode entry.recentVisitors).length ≤
      (head 4 entry.recentVisitors.length).length +
        entry.recentVisitors.length * sizeSingleVisitorBytes :=
    Codec.length_encode_array_le _ fun v _ => length_encode_storedVisitor_le v
  have hmark : (head 5 1 ++ Codec.text "v").length = 3 := by decide
  rw [StoredCountEntry.toCbor, ciborium.intoWriter_eq entry (by omega)]
  show ((head 5 1 ++ Codec.text "v") ++
    StoredVisitor.codec.array.encode entry.recentVisitors).length ≤ _
  rw [List.length_append, hmark]
  omega

/-- The space that is not reserved holds the longest list that is kept. -/
theorem length_toCbor_le_reserved (ciborium : Ciborium) {entry : StoredCountEntry}
    (h : entry.recentVisitors.length ≤ maxRecentVisitors) :
    (entry.toCbor ciborium).length ≤ dynamoMaxItemSizeBytes - reservedNonValueSizeBytes := by
  have hlength := length_toCbor_le ciborium h
  rw [maxRecentVisitors_eq] at h
  simp only [sizeSingleVisitorBytes] at hlength
  simp only [dynamoMaxItemSizeBytes, reservedNonValueSizeBytes]
  omega

/-! ### The count -/

theorem utf8ByteSize_ofList_of_isDigit {l : List Char} (h : ∀ c ∈ l, c.isDigit = true) :
    (String.ofList l).utf8ByteSize = l.length := by
  induction l with
  | nil => rfl
  | cons c l ih =>
      obtain ⟨hc, hl⟩ := List.forall_mem_cons.mp h
      have hsize : c.utf8Size = 1 := by
        rw [Char.utf8Size_eq_one_iff]
        simp only [Char.isDigit, Bool.and_eq_true, decide_eq_true_eq] at hc
        exact UInt32.le_trans hc.2 (by decide)
      rw [String.ofList_cons, String.utf8ByteSize_append, String.utf8ByteSize_singleton, hsize,
        ih hl, List.length_cons]
      omega

/-- A count has at most 20 digits. -/
theorem utf8ByteSize_u64ToString_le (n : UInt64) : (u64ToString n).utf8ByteSize ≤ 20 := by
  have hdigits : ∀ c ∈ Nat.toDigits 10 n.toNat, c.isDigit = true := fun c hc =>
    Nat.isDigit_of_mem_toDigits (by omega) (by omega) hc
  have bound := n.toNat_lt
  rw [u64ToString, Nat.repr_eq_ofList_toDigits, utf8ByteSize_ofList_of_isDigit hdigits,
    Nat.length_toDigits_le_iff (by omega) (by omega)]
  omega

/-! ### The item -/

/-- The size of an item, attribute by attribute. -/
theorem itemSize_attributes (ciborium : Ciborium) (name : String) (item : StoredItem) :
    itemSize (item.attributes ciborium name) =
      (3 + name.utf8ByteSize) + (5 + (u64ToString item.count).utf8ByteSize) +
        (5 + (item.value.toCbor ciborium).length) := by
  have hkey : "key".utf8ByteSize = 3 := by decide
  have hcount : "count".utf8ByteSize = 5 := by decide
  have hvalue : "value".utf8ByteSize = 5 := by decide
  simp only [itemSize, StoredItem.attributes, AttributeValue.size, List.map_cons, List.map_nil,
    List.sum_cons, List.sum_nil, hkey, hcount, hvalue]
  omega

/-- **An item with a list of at most `maxRecentVisitors` fits.** -/
theorem fits_attributes {ciborium : Ciborium} {name : String} {input : PutItemInput}
    {item : StoredItem} (hitem : input.item = item.attributes ciborium name)
    (h : item.recent.length ≤ maxRecentVisitors) : Fits name input := by
  have hblob : (item.value.toCbor ciborium).length ≤
      dynamoMaxItemSizeBytes - reservedNonValueSizeBytes := length_toCbor_le_reserved ciborium h
  refine ⟨⟨item.value.toCbor ciborium, by rw [hitem]; rfl, hblob⟩, fun hname => ?_⟩
  have hdigits := utf8ByteSize_u64ToString_le item.count
  rw [hitem, itemSize_attributes]
  simp only [dynamoMaxItemSizeBytes, reservedNonValueSizeBytes] at hblob ⊢
  omega

/-- A creation fits. -/
theorem newCountEntryInput_fits {ciborium : Ciborium} {tableName name : String}
    {visitor : Visitor} {input : PutItemInput}
    (h : newCountEntryInput ciborium tableName name visitor = .ok input) : Fits name input := by
  obtain ⟨request, hput, rfl⟩ := newCountEntryInput_eq_ok_iff.mp h
  -- A creation does not depend on `now`.
  have hrequest : Invocation.attempt ⟨visitor, 0⟩ none = .ok request := hput
  obtain ⟨-, rfl⟩ := attempt_none_eq_ok_iff.mp hrequest
  refine fits_attributes rfl ?_
  rw [maxRecentVisitors_eq]
  simp

/-- An update with a pruned entry fits, however long the list was before. -/
theorem countEntryInput_fits {ciborium : Ciborium} {tableName name : String}
    {initialCount : UInt64} {now : ℤ} {recorded pruned : CountEntry} {input : PutItemInput}
    (hprune : pruneVisitors recorded now maxRecentVisitors = .ok pruned)
    (h : countEntryInput ciborium tableName name initialCount pruned = .ok input) :
    Fits name input := by
  obtain ⟨request, hput, rfl⟩ := countEntryInput_eq_ok_iff.mp h
  obtain ⟨-, rfl⟩ := countEntryPut_eq_ok_iff.mp hput
  obtain ⟨-, -, hrecent⟩ := pruneVisitors_eq_ok_iff.mp hprune
  refine fits_attributes rfl ?_
  rw [StoredItem.recent_mk, List.length_map, hrecent]
  exact length_cull_le _ _

/-! ### What the program issues -/

section Keeps

variable {ε σ α β : Type} {I : σ → Prop}

/-- A program that may fail, on a state: it keeps `I`, however it ends. -/
def Keeps (I : σ → Prop) (x : ExceptT ε (StateM σ) α) : Prop :=
  ∀ s, I s → I (x.run.run s).2

theorem keeps_pure (a : α) : Keeps I (pure a : ExceptT ε (StateM σ) α) := fun _ h => h

theorem keeps_throw (e : ε) : Keeps I (throw e : ExceptT ε (StateM σ) α) := fun _ h => h

theorem keeps_lift {x : StateM σ α} (h : ∀ s, I s → I (x.run s).2) :
    Keeps I (liftM x : ExceptT ε (StateM σ) α) := h

theorem keeps_bind {x : ExceptT ε (StateM σ) α} {f : α → ExceptT ε (StateM σ) β}
    (hx : Keeps I x) (hf : ∀ a, Keeps I (f a)) : Keeps I (x >>= f) := by
  intro s hs
  have hfirst := hx s hs
  rw [ExceptT.run_bind]
  show I (StateT.run (match (x.run.run s).1 with
    | .ok a => (f a).run
    | .error e => pure (.error e)) (x.run.run s).2).2
  cases (x.run.run s).1 with
  | ok a => exact hf a _ hfirst
  | error e => exact hfirst

end Keeps

variable {σ : Type} {I : σ → Prop} {α β : Type}

theorem keeps_propagate (x : Except BoxError α) :
    Keeps I (propagate x : ExceptT Failure (StateM σ) α) := by
  cases x with
  | ok a => exact keeps_pure a
  | error e => exact keeps_throw _

/-- After code that may panic, only the results it can have matter. -/
theorem keeps_panicking_bind {x : Except Panic α} {f : α → ExceptT Failure (StateM σ) β}
    (h : ∀ a, x = .ok a → Keeps I (f a)) : Keeps I (panicking x >>= f) := by
  cases x with
  | ok a =>
      show Keeps I (pure a >>= f)
      rw [pure_bind]
      exact h a rfl
  | error e => exact fun _ hs => hs

section Rule

variable {store : Store (StateM σ)} {visitor : Visitor} {name : String} {now : ℤ}
  (hget : ∀ input s, I s → I ((store.client.getItem input).run s).2)
  (hput : ∀ input, Fits name input → ∀ s, I s → I ((store.client.putItem input).run s).2)

include hget in
theorem keeps_getCountEntry : Keeps I (store.getCountEntry name) := by
  refine keeps_bind (keeps_lift (hget _)) fun reply =>
    keeps_bind (keeps_propagate _) fun output => ?_
  cases output.item with
  | none => exact keeps_pure _
  | some item => exact keeps_bind (keeps_propagate _) fun entry => keeps_pure _

include hput

theorem keeps_tryPutNewCountEntry : Keeps I (store.tryPutNewCountEntry name visitor) :=
  keeps_panicking_bind fun _ hinput =>
    keeps_bind (keeps_lift (hput _ (newCountEntryInput_fits hinput))) fun _ => keeps_propagate _

theorem keeps_tryPutCountEntry {initialCount : UInt64} {recorded pruned : CountEntry}
    (hprune : pruneVisitors recorded now maxRecentVisitors = .ok pruned) :
    Keeps I (store.tryPutCountEntry name initialCount pruned) :=
  keeps_panicking_bind fun _ hinput =>
    keeps_bind (keeps_lift (hput _ (countEntryInput_fits hprune hinput))) fun _ => keeps_propagate _

include hget

/-- **The rule of the retry loop**: what gets and fitting puts keep, it keeps. -/
theorem keeps_attempts (left : ℕ) : Keeps I (store.attempts visitor name now left) := by
  induction left with
  | zero => exact keeps_throw _
  | succ left ih =>
      refine keeps_bind (keeps_getCountEntry hget) fun loaded => ?_
      cases loaded with
      | none =>
          refine keeps_bind (keeps_tryPutNewCountEntry hput) fun applied => ?_
          cases applied with
          | true => exact keeps_pure _
          | false => exact ih
      | some countEntry =>
          refine keeps_panicking_bind fun recorded _ => keeps_panicking_bind fun pruned hprune => ?_
          refine keeps_bind (keeps_tryPutCountEntry hput hprune) fun applied => ?_
          cases applied with
          | true => exact keeps_pure _
          | false => exact ih

end Rule

/-- A client that records the puts it is asked for. -/
def recording (client : Dynamo (StateM σ)) : Dynamo (StateM (List PutItemInput × σ)) where
  getItem input := do
    let (puts, s) ← get
    let (reply, s) := (client.getItem input).run s
    set (puts, s)
    return reply
  putItem input := do
    let (puts, s) ← get
    let (reply, s) := (client.putItem input).run s
    set (input :: puts, s)
    return reply

/-- **Every put of an invocation fits the size limit**, whatever items the client
serves and however it answers the puts. -/
theorem puts_fit (client : Dynamo (StateM σ)) (ciborium : Ciborium) (tableName name : String)
    (visitor : Visitor) (now : ℤ) (s : σ) :
    ∀ input ∈ (((Store.mk (recording client) ciborium tableName).maybeIncrementVisitors
        visitor name now).run.run ([], s)).2.1, Fits name input := by
  refine keeps_attempts (I := fun state => ∀ input ∈ state.1, Fits name input) ?_ ?_ _ ([], s) ?_
  · exact fun _ _ h => h
  · intro input hfits state h
    exact List.forall_mem_cons.mpr ⟨hfits, h⟩
  · exact fun _ hmem => absurd hmem List.not_mem_nil

/-- The creation for a first visitor, on a table without the item. -/
theorem puts_fit_first_visitor :
    Fits "default" {
      tableName := "table"
      conditionExpression := "attribute_not_exists(#k)"
      expressionAttributeNames := [("#k", "key")]
      expressionAttributeValues := []
      item := (⟨1, ⟨[⟨7, 130⟩]⟩⟩ : StoredItem).attributes Ciborium.reference "default" } := by
  refine puts_fit DynamoTable.reference.client Ciborium.reference "table" "default"
    ⟨7, 1_690_000_130_000_000_000⟩ 1_690_000_130_500_000_000 (fun _ => none) _ ?_
  exact List.mem_cons_self

end VisitorCounter

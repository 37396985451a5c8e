import Mathlib.Tactic

/-!
# Concise Binary Object Representation

The part of CBOR that definite-length records need: heads with a shortest-form
argument, unsigned integers, text keys, arrays and maps with fixed keys.  A
`Codec` packs an encoder and a decoder with the law that the decoder reads back
what the encoder wrote and leaves the rest of the input alone, so a codec built
from codecs is correct by construction.

## Main Definitions

* `head major n`: the initial byte and argument of a data item
* `Codec α`: a lawful prefix codec for the values of `α` it calls valid
* `Codec.u32`, `Codec.array`, `Codec.map1`, `Codec.map2`: the data items in use

## Main Results

* `readHead_head`: a head is read back, in all five widths of its argument
* `length_head_le_of_lt_2_16`, `length_head_le_of_lt_2_32`: the width of a head, by its argument
* `decodeMany_flatMap`: a list of encoded values is read back
-/

namespace Cbor

/-! ### Big-endian numbers -/

/-- The `k` low bytes of `n`, most significant first. -/
def beBytes : ℕ → ℕ → List UInt8
  | 0, _ => []
  | k + 1, n => beBytes k (n / 256) ++ [UInt8.ofNat n]

/-- The number written by big-endian bytes. -/
def ofBeBytes (bytes : List UInt8) : ℕ := bytes.foldl (fun n b => n * 256 + b.toNat) 0

@[simp] theorem length_beBytes : ∀ k n : ℕ, (beBytes k n).length = k := by
  intro k
  induction k with
  | zero => intro n; rfl
  | succ k ih => intro n; simp [beBytes, ih]

theorem ofBeBytes_beBytes : ∀ {k n : ℕ}, n < 256 ^ k → ofBeBytes (beBytes k n) = n := by
  intro k
  induction k with
  | zero =>
      intro n h
      obtain rfl : n = 0 := by omega
      rfl
  | succ k ih =>
      intro n h
      have hdiv : n / 256 < 256 ^ k := Nat.div_lt_of_lt_mul (by rw [pow_succ] at h; omega)
      rw [beBytes, ofBeBytes, List.foldl_append]
      show ofBeBytes (beBytes k (n / 256)) * 256 + (UInt8.ofNat n).toNat = n
      rw [ih hdiv, UInt8.toNat_ofNat']
      omega

/-! ### Heads -/

/-- The number of bytes the shortest-form argument `n` takes after the initial byte. -/
def argumentWidth (n : ℕ) : ℕ :=
  if n < 24 then 0 else if n < 256 then 1 else if n < 65536 then 2
  else if n < 4294967296 then 4 else 8

/-- The additional information of the initial byte: the argument itself, or the
code of its width. -/
def additionalInfo (n : ℕ) : ℕ :=
  if n < 24 then n else if n < 256 then 24 else if n < 65536 then 25
  else if n < 4294967296 then 26 else 27

/-- The head of a data item of the given major type with argument `n`. -/
def head (major n : ℕ) : List UInt8 :=
  UInt8.ofNat (major * 32 + additionalInfo n) :: beBytes (argumentWidth n) n

/-- The width that an additional information stands for. -/
def widthOfInfo (info : ℕ) : Option ℕ :=
  if info < 24 then some 0 else if info = 24 then some 1 else if info = 25 then some 2
  else if info = 26 then some 4 else if info = 27 then some 8 else none

/-- Read a head: its major type, its argument and the rest of the input. -/
def readHead : List UInt8 → Option (ℕ × ℕ × List UInt8)
  | [] => none
  | b :: rest => do
      let info := b.toNat % 32
      let width ← widthOfInfo info
      if rest.length < width then none
      else
        let n := if info < 24 then info else ofBeBytes (rest.take width)
        return (b.toNat / 32, n, rest.drop width)

theorem additionalInfo_le (n : ℕ) : additionalInfo n ≤ 27 := by
  unfold additionalInfo
  split_ifs <;> omega

theorem widthOfInfo_additionalInfo (n : ℕ) :
    widthOfInfo (additionalInfo n) = some (argumentWidth n) := by
  unfold widthOfInfo additionalInfo argumentWidth
  split_ifs <;> first | rfl | omega

theorem lt_pow_argumentWidth {n : ℕ} (h : n < 2 ^ 64) (hwide : 24 ≤ n) :
    n < 256 ^ argumentWidth n := by
  unfold argumentWidth
  split_ifs <;> omega

/-- **A head is read back**, whatever the width of its argument. -/
theorem readHead_head {major n : ℕ} (hmajor : major < 8) (hn : n < 2 ^ 64) (rest : List UInt8) :
    readHead (head major n ++ rest) = some (major, n, rest) := by
  have hinfo := additionalInfo_le n
  have hbyte : (UInt8.ofNat (major * 32 + additionalInfo n)).toNat
      = major * 32 + additionalInfo n := by
    rw [UInt8.toNat_ofNat']
    omega
  have hmod : (major * 32 + additionalInfo n) % 32 = additionalInfo n := by omega
  have hdiv : (major * 32 + additionalInfo n) / 32 = major := by omega
  have htake : (beBytes (argumentWidth n) n ++ rest).take (argumentWidth n)
      = beBytes (argumentWidth n) n := by
    rw [List.take_append_of_le_length (by simp), List.take_of_length_le (by simp)]
  have hdrop : (beBytes (argumentWidth n) n ++ rest).drop (argumentWidth n) = rest := by
    rw [List.drop_append_of_le_length (by simp), List.drop_of_length_le (by simp)]
    rfl
  have hvalue : (if additionalInfo n < 24 then additionalInfo n
      else ofBeBytes (beBytes (argumentWidth n) n)) = n := by
    by_cases hsmall : n < 24
    · simp [additionalInfo, hsmall]
    · rw [if_neg (by unfold additionalInfo; split_ifs <;> omega),
        ofBeBytes_beBytes (lt_pow_argumentWidth hn (by omega))]
  have hlen : ¬ (beBytes (argumentWidth n) n ++ rest).length < argumentWidth n := by simp
  simp only [head, List.cons_append, readHead, hbyte, hmod, hdiv,
    widthOfInfo_additionalInfo, Option.bind_eq_bind, Option.bind_some, hlen, if_false, htake,
    hdrop, hvalue, pure]

theorem length_head (major n : ℕ) : (head major n).length = 1 + argumentWidth n := by
  simp [head, Nat.add_comm]

theorem length_head_le_of_lt_2_16 {major n : ℕ} (h : n < 65536) :
    (head major n).length ≤ 3 := by
  rw [length_head]
  unfold argumentWidth
  split_ifs <;> omega

theorem length_head_le_of_lt_2_32 {major n : ℕ} (h : n < 4294967296) :
    (head major n).length ≤ 5 := by
  rw [length_head]
  unfold argumentWidth
  split_ifs <;> omega

/-! ### Codecs -/

/-- A prefix codec: `decode` takes one encoded value off the front of its input.
`Valid` says which values the format can hold. -/
structure Codec (α : Type) where
  Valid : α → Prop
  encode : α → List UInt8
  decode : List UInt8 → Option (α × List UInt8)
  /-- The decoder reads back what the encoder wrote. -/
  decode_encode : ∀ a rest, Valid a → decode (encode a ++ rest) = some (a, rest)

namespace Codec

variable {α β : Type}

/-- An unsigned integer of 32 bits: major type 0. -/
def u32 : Codec UInt32 where
  Valid _ := True
  encode n := head 0 n.toNat
  decode input := do
    let (major, n, rest) ← readHead input
    if major = 0 ∧ n < 4294967296 then some (UInt32.ofNat n, rest) else none
  decode_encode n rest _ := by
    have bound := n.toNat_lt
    rw [readHead_head (by omega) (by omega)]
    simp only [Option.bind_eq_bind, Option.bind_some, true_and]
    rw [if_pos bound, UInt32.ofNat_toNat]

/-- Fixed bytes in front of a value, such as a map header or a key. -/
def prefixed (mark : List UInt8) (c : Codec α) : Codec α where
  Valid := c.Valid
  encode a := mark ++ c.encode a
  decode input := if mark <+: input then c.decode (input.drop mark.length) else none
  decode_encode a rest ha := by
    rw [List.append_assoc, if_pos (List.prefix_append _ _), List.drop_left]
    exact c.decode_encode a rest ha

/-- One value after another. -/
def pair (c : Codec α) (d : Codec β) : Codec (α × β) where
  Valid p := c.Valid p.1 ∧ d.Valid p.2
  encode p := c.encode p.1 ++ d.encode p.2
  decode input := do
    let (a, rest) ← c.decode input
    let (b, rest) ← d.decode rest
    return ((a, b), rest)
  decode_encode p rest hp := by
    rw [List.append_assoc, c.decode_encode _ _ hp.1]
    simp only [Option.bind_eq_bind, Option.bind_some]
    rw [d.decode_encode _ _ hp.2]
    rfl

/-- The same bytes for an equivalent type. -/
def equiv (c : Codec α) (e : β ≃ α) : Codec β where
  Valid b := c.Valid (e b)
  encode b := c.encode (e b)
  decode input := (c.decode input).map fun p => (e.symm p.1, p.2)
  decode_encode b rest hb := by
    rw [c.decode_encode _ _ hb]
    simp

/-- Read `n` values one after another. -/
def decodeMany (c : Codec α) : ℕ → List UInt8 → Option (List α × List UInt8)
  | 0, input => some ([], input)
  | n + 1, input => do
      let (a, rest) ← c.decode input
      let (as, rest) ← decodeMany c n rest
      return (a :: as, rest)

theorem decodeMany_flatMap (c : Codec α) : ∀ (l : List α) (rest : List UInt8),
    (∀ a ∈ l, c.Valid a) →
      c.decodeMany l.length (l.flatMap c.encode ++ rest) = some (l, rest) := by
  intro l
  induction l with
  | nil => intro rest _; rfl
  | cons a l ih =>
      intro rest hvalid
      rw [List.flatMap_cons, List.append_assoc, List.length_cons, decodeMany,
        c.decode_encode _ _ (hvalid a List.mem_cons_self)]
      simp only [Option.bind_eq_bind, Option.bind_some]
      rw [ih rest fun b hb => hvalid b (List.mem_cons_of_mem _ hb)]
      rfl

/-- A definite-length array: major type 4. -/
def array (c : Codec α) : Codec (List α) where
  Valid l := l.length < 2 ^ 64 ∧ ∀ a ∈ l, c.Valid a
  encode l := head 4 l.length ++ l.flatMap c.encode
  decode input := do
    let (major, n, rest) ← readHead input
    if major = 4 then c.decodeMany n rest else none
  decode_encode l rest hl := by
    rw [List.append_assoc, readHead_head (by omega) hl.1]
    simp only [Option.bind_eq_bind, Option.bind_some, if_true]
    exact c.decodeMany_flatMap l rest hl.2

/-- A text string used as a key: major type 3. -/
def text (s : String) : List UInt8 := head 3 s.utf8ByteSize ++ s.toUTF8.data.toList

/-- A definite-length map with one fixed key: major type 5. -/
def map1 (key : String) (c : Codec α) : Codec α := prefixed (head 5 1 ++ text key) c

/-- A definite-length map with two fixed keys, in order: major type 5. -/
def map2 (key₁ : String) (c : Codec α) (key₂ : String) (d : Codec β) : Codec (α × β) :=
  prefixed (head 5 2) (pair (prefixed (text key₁) c) (prefixed (text key₂) d))

/-! ### Encoded sizes -/

theorem length_encode_u32_le (n : UInt32) : (u32.encode n).length ≤ 5 :=
  length_head_le_of_lt_2_32 n.toNat_lt

/-- The size of an array whose elements take at most `k` bytes each. -/
theorem length_encode_array_le (c : Codec α) {l : List α} {k : ℕ}
    (hk : ∀ a ∈ l, (c.encode a).length ≤ k) :
    (c.array.encode l).length ≤ (head 4 l.length).length + l.length * k := by
  show (head 4 l.length ++ l.flatMap c.encode).length ≤ _
  rw [List.length_append, List.length_flatMap]
  have hsum := List.sum_le_card_nsmul (l.map fun a => (c.encode a).length) k (by simpa using hk)
  simp only [List.length_map, smul_eq_mul] at hsum
  omega

end Codec

end Cbor

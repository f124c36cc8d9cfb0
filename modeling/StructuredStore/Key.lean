import StructuredStore.DataError
import StructuredStore.Text.Utf8
import StructuredStore.Time.Instant

/-!
# Physical keys

A value lies at the bytes of its logical key.  The items of a structure lie at
the logical key, a colon, a marker of the structure's kind, another colon and a
selector.  Selectors of indices and instants are fixed-width and offset, so
that their bytewise order is the numeric order.  Keys in the namespace of the
expiry buckets are reserved.

Main results:

- `ofIndexSelector_indexSelector`: an index is read back from its selector.
-/

namespace StructuredStore.Key

/-! ## Items of structures -/

/-- Tells the items of different kinds of structures apart. -/
inductive Marker where
  | list
  | map
  | set
  | bloom
  | series
deriving DecidableEq, Repr

/-- The marker's byte: a capital letter. -/
def Marker.byte : Marker → UInt8
  | .list => 0x4c
  | .map => 0x4d
  | .set => 0x53
  | .bloom => 0x42
  | .series => 0x54

/-- The physical key of a logical one. -/
def ofText (key : String) : Bytes :=
  Utf8.encode key

/-- What the keys of all items of a structure start with. -/
def itemStem (key : String) (marker : Marker) : Bytes :=
  Utf8.encode key ++ [0x3a, marker.byte, 0x3a]

/-- The key of one item. -/
def item (key : String) (marker : Marker) (selector : Bytes) : Bytes :=
  itemStem key marker ++ selector

/-! ## Selectors of indices -/

/-- The distance from the least index to zero. -/
def signOffset : Int := 9223372036854775808

/-- An index, as its distance from the least one. -/
def indexSelector (index : Int64) : Bytes :=
  Bytes.bigEndian 8 (index.toInt + signOffset).toNat

/-- The index that a selector of eight bytes stands for. -/
def ofIndexSelector (selector : Bytes) : Except DataError Int64 :=
  if selector.length = 8 then
    .ok (Int64.ofInt (Bytes.ofBigEndian selector - signOffset))
  else .error (.corrupt (.selectorLength selector.length))

/-- An instant, by its count of nanoseconds. -/
def instantSelector (instant : Instant) : Except DataError Bytes :=
  match instant.toInt64? with
  | some count => .ok (indexSelector count)
  | none => .error .overflow

/-- The instant that a selector stands for. -/
def ofInstantSelector (selector : Bytes) : Except DataError Instant :=
  (ofIndexSelector selector).map .ofInt64

/-- The key of the item of a list at an index. -/
def listItem (key : String) (index : Int64) : Bytes :=
  item key .list (indexSelector index)

/-- The selector of an index is read as the index. -/
@[simp]
theorem ofIndexSelector_indexSelector (index : Int64) :
    ofIndexSelector (indexSelector index) = .ok index := by
  have hlow : -9223372036854775808 ≤ index.toInt := index.le_toInt
  have hhigh : index.toInt ≤ 9223372036854775807 := index.toInt_le
  have hpow : Nat.pow 256 8 = 18446744073709551616 := by decide
  have hoffset : signOffset = 9223372036854775808 := rfl
  have hsmall : (index.toInt + signOffset).toNat < Nat.pow 256 8 := by omega
  unfold ofIndexSelector indexSelector
  rw [if_pos (Bytes.length_bigEndian _ _), Bytes.ofBigEndian_bigEndian,
    Nat.mod_eq_of_lt hsmall]
  have hback : (((index.toInt + signOffset).toNat : Int) - signOffset) = index.toInt := by
    omega
  rw [hback, Int64.ofInt_toInt]

/-! ## Expiry buckets -/

/-- What the keys of all expiry buckets start with. -/
def bucketStem : String := "__expiry__:"

/-- How many digits follow the stem. -/
def bucketDigits : Nat := 20

/-- Whether a logical key lies in the namespace of the expiry buckets. -/
def isReserved (key : String) : Bool :=
  (Utf8.encode bucketStem).isPrefixOf (Utf8.encode key)

/-- The number of a bucket: its starting second, as the distance from the least
one. -/
def bucketOrdinal (seconds : Int64) : Nat :=
  (seconds.toInt + signOffset).toNat

/-- The logical key of the bucket that starts at a second. -/
def bucket (seconds : Int64) : String :=
  bucketStem ++ String.ofList (Numeral.fixedDigits bucketDigits (bucketOrdinal seconds))

/-- The number of the bucket at a physical key, if there is a bucket there: the
stem is followed by exactly twenty bytes, and they are a numeral. -/
def bucketOrdinal? (key : Bytes) : Option Nat :=
  let digits := key.drop (Utf8.encode bucketStem).length
  if digits.length = bucketDigits then
    match Utf8.decode? digits with
    | none => none
    | some text =>
        match Numeral.readUInt64 text with
        | .ok n => some n.toNat
        | .error _ => none
  else none

end StructuredStore.Key

import StructuredStore.Binary64.Shortest
import StructuredStore.Bytes
import StructuredStore.Decimal.Text
import StructuredStore.Time.Rfc3339

/-!
# Stored values

Every value that the store can hold at a key or inside a structure.  A
structure's own value is its metadata: the items lie under keys of their own.
-/

namespace StructuredStore

/-! ## Parts of values -/

/-- A universally unique identifier: sixteen bytes. -/
structure Uuid where
  bytes : Bytes
  length_bytes : bytes.length = 16
deriving DecidableEq

/-- Metadata of a list: its items lie at the indices from `head` to `tail`. -/
structure ListHandle where
  head : Int64
  tail : Int64
  length : Int64
deriving DecidableEq, Repr

/-- The metadata of every empty list. -/
def ListHandle.empty : ListHandle := ⟨0, -1, 0⟩

/-- Metadata of a membership filter. -/
structure BloomHandle where
  slots : UInt8
  salt : String
  count : UInt64
deriving DecidableEq, Repr

/-- A hashed password. -/
structure PasswordRecord where
  algorithm : String
  hash : Bytes
  salt : Bytes
deriving DecidableEq, Repr

/-- An encrypted value. -/
structure EncryptedRecord where
  algorithm : String
  ciphertext : Bytes
  nonce : Bytes
deriving DecidableEq, Repr

/-- One share of a split secret. -/
structure SecretShare where
  index : UInt8
  threshold : UInt8
  share : Bytes
deriving DecidableEq, Repr

/-! ## Values -/

/-- A stored value. -/
inductive Value where
  | null
  | int (i : Int64)
  | float (x : Binary64)
  | decimal (d : Decimal)
  | bigInt (i : Int)
  | text (s : String)
  | bool (b : Bool)
  | timestamp (instant : Instant)
  | time (t : TimeOfDay)
  | duration (d : Span)
  | binary (bytes : Bytes)
  | uuid (id : Uuid)
  | list (handle : ListHandle)
  | map (count : UInt64)
  | set (count : UInt64)
  | series (count : UInt64)
  | bloom (handle : BloomHandle)
  | password (record : PasswordRecord)
  | encrypted (record : EncryptedRecord)
  | share (part : SecretShare)
  | bitmap (bytes : Bytes)
deriving DecidableEq

namespace Value

/-- The kind of the value. -/
def kind : Value → Kind
  | .null => .null
  | .int _ => .int
  | .float _ => .float
  | .decimal _ => .decimal
  | .bigInt _ => .bigInt
  | .text _ => .text
  | .bool _ => .bool
  | .timestamp _ => .timestamp
  | .time _ => .time
  | .duration _ => .duration
  | .binary _ => .binary
  | .uuid _ => .uuid
  | .list _ => .list
  | .map _ => .map
  | .set _ => .set
  | .series _ => .series
  | .bloom _ => .bloom
  | .password _ => .password
  | .encrypted _ => .encrypted
  | .share _ => .share
  | .bitmap _ => .bitmap

/-! ## Showing values -/

/-- Two hexadecimal digits for every byte. -/
def hexDigits (bytes : Bytes) : List Char :=
  bytes.flatMap fun byte =>
    [Nat.digitChar (byte.toNat / 16), Nat.digitChar (byte.toNat % 16)]

/-- An identifier in groups of 8, 4, 4, 4 and 12 hexadecimal digits. -/
def uuidText (id : Uuid) : String :=
  let group := fun start count => hexDigits ((id.bytes.drop start).take count)
  String.ofList
    (group 0 4 ++ '-' :: group 4 2 ++ '-' :: group 6 2 ++ '-' :: group 8 2 ++
      '-' :: group 10 6)

/-- What is shown for a value that has no text of its own. -/
def described (words : String) : String :=
  "(" ++ words ++ ")"

/-- The value as text. -/
def toText : Value → String
  | .null => described "null"
  | .int i => Numeral.ofInt i.toInt
  | .float x => x.toText
  | .decimal d => d.toText
  | .bigInt i => Numeral.ofInt i
  | .text s => s
  | .bool b => if b then "true" else "false"
  | .timestamp instant => Rfc3339.toText instant
  | .time t => t.toText
  | .duration d => d.toText
  | .binary bytes | .bitmap bytes =>
      described (Numeral.ofNat bytes.length ++ " bytes")
  | .uuid id => uuidText id
  | .list handle => described ("list of " ++ Numeral.ofInt handle.length.toInt)
  | .map count => described ("map of " ++ Numeral.ofNat count.toNat)
  | .set count => described ("set of " ++ Numeral.ofNat count.toNat)
  | .series count => described ("timeseries of " ++ Numeral.ofNat count.toNat)
  | .bloom handle => described ("bloomfilter of " ++ Numeral.ofNat handle.count.toNat)
  | .password record => described ("password, " ++ record.algorithm)
  | .encrypted record => described ("encrypted, " ++ record.algorithm)
  | .share part =>
      described ("share " ++ Numeral.ofNat part.index.toNat ++ " of " ++
        Numeral.ofNat part.threshold.toNat)

/-- The value as it is shown.  Only decimals may be beyond what can be shown. -/
def toText? : Value → Option String
  | .decimal d => d.toText?
  | value => some value.toText

end Value
end StructuredStore

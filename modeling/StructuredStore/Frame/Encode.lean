import StructuredStore.Text.Utf8
import StructuredStore.Value

/-!
# Writing frames

A frame is what lies at one physical key: a tag byte, the payload of the value
and eight bytes of expiry.  Numbers are little endian, byte strings of variable
length carry their length in front, and the expiry zero means none.
-/

namespace StructuredStore

/-- A value together with the instant at which it expires, if any. -/
structure Frame where
  value : Value
  expireAt : Option Instant
deriving DecidableEq

namespace Frame

/-- The bytes of a 64-bit signed number. -/
def int64Field (i : Int64) : Bytes :=
  Bytes.littleEndian 8 i.toUInt64.toNat

/-- The bytes of a 64-bit unsigned number. -/
def uint64Field (n : UInt64) : Bytes :=
  Bytes.littleEndian 8 n.toNat

/-- A byte string behind its length; the length has to fit 32 bits. -/
def prefixedField (bytes : Bytes) : Except DataError Bytes :=
  if bytes.length < 4294967296 then .ok (Bytes.littleEndian 4 bytes.length ++ bytes)
  else .error .overflow

/-- A text behind its length. -/
def textField (text : String) : Except DataError Bytes :=
  prefixedField (Utf8.encode text)

/-- An instant as its count of nanoseconds, if that fits 64 bits. -/
def instantField (instant : Instant) : Except DataError Bytes :=
  match instant.toInt64? with
  | some count => .ok (int64Field count)
  | none => .error .overflow

/-- The payload of a value. -/
def payload : Value → Except DataError Bytes
  | .null => .ok []
  | .int i => .ok (int64Field i)
  | .float x => .ok (uint64Field x.bits)
  | .decimal d =>
      .ok (int64Field d.coefficient ++ Bytes.littleEndian 4 d.scale.toUInt32.toNat)
  | .bigInt i => .ok ((if i < 0 then 1 else 0) :: Bytes.magnitude i.natAbs)
  | .text s => textField s
  | .bool b => .ok [if b then 1 else 0]
  | .timestamp instant => instantField instant
  | .time t => .ok (int64Field (Int64.ofNat t.nanoseconds))
  | .duration d =>
      match d.toInt64? with
      | some count => .ok (int64Field count)
      | none => .error .overflow
  | .binary bytes | .bitmap bytes => prefixedField bytes
  | .uuid id => .ok id.bytes
  | .list handle =>
      .ok (int64Field handle.head ++ int64Field handle.tail ++ int64Field handle.length)
  | .map count | .set count | .series count => .ok (uint64Field count)
  | .bloom handle => do
      let salt ← textField handle.salt
      return handle.slots :: (uint64Field handle.count ++ salt)
  | .password record => do
      let algorithm ← textField record.algorithm
      let hash ← prefixedField record.hash
      let salt ← prefixedField record.salt
      return algorithm ++ hash ++ salt
  | .encrypted record => do
      let algorithm ← textField record.algorithm
      let ciphertext ← prefixedField record.ciphertext
      let nonce ← prefixedField record.nonce
      return algorithm ++ ciphertext ++ nonce
  | .share part => do
      let bytes ← prefixedField part.share
      return part.index :: part.threshold :: bytes

/-- The expiry at the end of a frame. -/
def expiryField : Option Instant → Except DataError Bytes
  | none => .ok (int64Field 0)
  | some instant => instantField instant

/-- The bytes of a frame.  Only a time outside the range of its field and a
byte string too long for its length field cannot be written. -/
def encode (frame : Frame) : Except DataError Bytes := do
  let body ← payload frame.value
  let expiry ← expiryField frame.expireAt
  return frame.value.kind.tag :: (body ++ expiry)

end Frame
end StructuredStore

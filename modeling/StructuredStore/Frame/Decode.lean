import StructuredStore.Frame.Encode

/-!
# Reading frames

The tag says which fields the payload has.  Fields are read from the front and
have to use up the payload exactly; the last eight bytes are the expiry.
-/

namespace StructuredStore

/-- The unread part of a payload. -/
structure Payload where
  kind : Kind
  /-- How many bytes have been read. -/
  position : Nat
  rest : Bytes
deriving DecidableEq

/-- Reads something off the front of a payload. -/
abbrev FieldReader (α : Type) := StateT Payload (Except DataError) α

namespace FieldReader

/-- Refuses the payload. -/
def refuse {α : Type} (cause : Corruption) : FieldReader α :=
  throw (.corrupt cause)

/-- The next `count` bytes. -/
def take (count : Nat) : FieldReader Bytes := fun payload =>
  match Bytes.take? count payload.rest with
  | some (front, rest) =>
      .ok (front, { payload with position := payload.position + count, rest })
  | none => .error (.corrupt (.truncated payload.kind payload.position))

/-- All the remaining bytes. -/
def remaining : FieldReader Bytes := fun payload =>
  .ok (payload.rest,
    { payload with position := payload.position + payload.rest.length, rest := [] })

/-- A little-endian number of the given width. -/
def number (width : Nat) : FieldReader Nat :=
  Bytes.ofLittleEndian <$> take width

/-- One byte. -/
def byte : FieldReader UInt8 :=
  UInt8.ofNat <$> number 1

/-- A 64-bit signed number. -/
def int64 : FieldReader Int64 :=
  (fun n => (UInt64.ofNat n).toInt64) <$> number 8

/-- A 64-bit unsigned number. -/
def uint64 : FieldReader UInt64 :=
  UInt64.ofNat <$> number 8

/-- A 32-bit signed number. -/
def int32 : FieldReader Int32 :=
  (fun n => (UInt32.ofNat n).toInt32) <$> number 4

/-- A byte string behind its length. -/
def prefixed : FieldReader Bytes := do
  take (← number 4)

/-- A text behind its length. -/
def text : FieldReader String := do
  let bytes ← prefixed
  match Utf8.decode? bytes with
  | some s => return s
  | none => refuse (.notUtf8 (← get).kind)

/-- A big integer: a sign byte and at least one digit. -/
def bigInt : FieldReader Int := do
  let sign ← byte
  if 1 < sign then refuse (.signByte sign)
  let magnitude ← remaining
  if magnitude.isEmpty then refuse .noMagnitude
  let n := Bytes.ofBigEndian magnitude
  return if sign = 1 then -(n : Int) else n

/-- A truth value. -/
def bool : FieldReader Bool := do
  let b ← byte
  if 1 < b then refuse (.boolByte b)
  return b = 1

/-- A time of day, in nanoseconds since midnight.  Only the low 32 bits of the
second are looked at. -/
def timeOfDay : FieldReader TimeOfDay := do
  let nanos := (← int64).toInt
  if nanos < 0 then refuse .negativeTime
  let second := (nanos / 1000000000).toNat % 4294967296
  match TimeOfDay.ofParts? second (nanos % 1000000000).toNat with
  | some t => return t
  | none => refuse .timeOutOfRange

/-- An identifier. -/
def uuid : FieldReader Uuid := do
  let bytes ← take 16
  if h : bytes.length = 16 then return ⟨bytes, h⟩
  else refuse (.truncated .uuid 0)

/-- The metadata of a list, which is in its empty form if the length is zero. -/
def listHandle : FieldReader ListHandle := do
  let head ← int64
  let tail ← int64
  let length ← int64
  if length < 0 ∨ (length = 0 ∧ (head ≠ 0 ∨ tail ≠ -1)) then
    refuse (.listHandle head tail length)
  return ⟨head, tail, length⟩

/-- The metadata of a membership filter. -/
def bloomHandle : FieldReader BloomHandle := do
  let slots ← byte
  let count ← uint64
  let salt ← text
  return ⟨slots, salt, count⟩

/-- A hashed password. -/
def passwordRecord : FieldReader PasswordRecord := do
  let algorithm ← text
  let hash ← prefixed
  let salt ← prefixed
  return ⟨algorithm, hash, salt⟩

/-- An encrypted value. -/
def encryptedRecord : FieldReader EncryptedRecord := do
  let algorithm ← text
  let ciphertext ← prefixed
  let nonce ← prefixed
  return ⟨algorithm, ciphertext, nonce⟩

/-- A share of a secret. -/
def secretShare : FieldReader SecretShare := do
  let index ← byte
  let threshold ← byte
  let share ← prefixed
  return ⟨index, threshold, share⟩

/-- A decimal. -/
def decimal : FieldReader Decimal := do
  let coefficient ← int64
  let scale ← int32
  return ⟨coefficient, scale⟩

/-- The value of the given kind. -/
def value : Kind → FieldReader Value
  | .null => return .null
  | .int => .int <$> int64
  | .float => (fun bits => .float ⟨bits⟩) <$> uint64
  | .decimal => .decimal <$> decimal
  | .bigInt => .bigInt <$> bigInt
  | .text => .text <$> text
  | .bool => .bool <$> bool
  | .timestamp => (fun count => .timestamp (.ofInt64 count)) <$> int64
  | .time => .time <$> timeOfDay
  | .duration => (fun count => .duration (.ofInt64 count)) <$> int64
  | .binary => .binary <$> prefixed
  | .uuid => .uuid <$> uuid
  | .list => .list <$> listHandle
  | .map => .map <$> uint64
  | .set => .set <$> uint64
  | .series => .series <$> uint64
  | .bloom => .bloom <$> bloomHandle
  | .password => .password <$> passwordRecord
  | .encrypted => .encrypted <$> encryptedRecord
  | .share => .share <$> secretShare
  | .bitmap => .bitmap <$> prefixed

end FieldReader

namespace Frame

/-- How many bytes of a frame are not payload: the tag and the expiry. -/
def overhead : Nat := 9

/-- The kind of value that the frame holds, from its tag alone. -/
def peekKind (bytes : Bytes) : Except DataError Kind :=
  match bytes with
  | [] => .error (.corrupt (.shortFrame 0))
  | tag :: _ =>
      if bytes.length < overhead then .error (.corrupt (.shortFrame bytes.length))
      else
        match Kind.ofTag? tag with
        | some kind => .ok kind
        | none => .error (.unknownTag tag)

/-- Reads the payload of a value of the given kind, to its end. -/
def decodePayload (kind : Kind) (bytes : Bytes) : Except DataError Value :=
  match (FieldReader.value kind).run ⟨kind, 0, bytes⟩ with
  | .error fault => .error fault
  | .ok (value, payload) =>
      if payload.rest.isEmpty then .ok value
      else .error (.corrupt (.trailing kind payload.rest.length))

/-- The expiry that the last eight bytes stand for. -/
def decodeExpiry (bytes : Bytes) : Option Instant :=
  let count := (UInt64.ofNat (Bytes.ofLittleEndian bytes)).toInt64
  if count = 0 then none else some (.ofInt64 count)

/-- Reads a frame whose kind is known. -/
def decodeKind (kind : Kind) (bytes : Bytes) : Except DataError Frame :=
  let payloadLength := bytes.length - overhead
  match decodePayload kind ((bytes.drop 1).take payloadLength) with
  | .error fault => .error fault
  | .ok value => .ok ⟨value, decodeExpiry (bytes.drop (payloadLength + 1))⟩

/-- Reads a frame. -/
def decode (bytes : Bytes) : Except DataError Frame :=
  match peekKind bytes with
  | .error fault => .error fault
  | .ok kind => decodeKind kind bytes

/-- Reads a frame that has to hold a value of the expected kind. -/
def decodeAs (expected : Kind) (bytes : Bytes) : Except DataError Frame :=
  match peekKind bytes with
  | .error fault => .error fault
  | .ok found =>
      if found = expected then decodeKind found bytes
      else .error (.typeMismatch expected found)

end Frame
end StructuredStore

import StructuredStore.Store.Scalar

/-!
# Bitmaps

A bitmap is a byte string read as bits, the highest bit of the first byte
first.  Bits past its end are zero; setting one lengthens the bitmap.
-/

namespace StructuredStore.Bitmap

/-- The longest byte string that a frame can hold. -/
def maxBytes : Nat := 4294967295

/-- The byte in which a bit lies. -/
def byteOf (offset : UInt64) : Nat :=
  offset.toNat / 8

/-- The bit's mask within its byte. -/
def maskOf (offset : UInt64) : UInt8 :=
  0x80 >>> UInt8.ofNat (offset.toNat % 8)

/-- The bit at an offset. -/
def test (bits : Bytes) (offset : UInt64) : Bool :=
  match bits[byteOf offset]? with
  | none => false
  | some byte => byte &&& maskOf offset != 0

/-- The bitmap with the bit at an offset set or cleared, and long enough to
hold it. -/
def assign (bits : Bytes) (offset : UInt64) (on : Bool) : Bytes :=
  let grown := bits ++ List.replicate (byteOf offset + 1 - bits.length) 0
  grown.modify (byteOf offset) fun byte =>
    if on then byte ||| maskOf offset else byte &&& ~~~ (maskOf offset)

/-- The number of ones in a byte. -/
def ones (byte : UInt8) : Nat :=
  (List.range 8).countP fun i => byte.toNat.testBit i

/-- The number of ones in a bitmap. -/
def count (bits : Bytes) : Nat :=
  bits.foldl (fun total byte => total + ones byte) 0

/-! ## Operations -/

/-- Sets or clears a bit and answers what it was. -/
def setBit (key : String) (offset : UInt64) (on : Bool) : StoreM Bool := do
  if maxBytes ≤ byteOf offset then throw .outOfRange
  Store.update key fun
    | none => .ok (.bitmap (assign [] offset on), false)
    | some (.bitmap bits) => .ok (.bitmap (assign bits offset on), test bits offset)
    | some other => .error (Store.mismatch .bitmap other)

/-- The bitmap at a key. -/
def read (key : String) : StoreM Bytes := do
  match ← Store.getAs key .bitmap with
  | .bitmap bits => return bits
  | other => throw (Store.mismatch .bitmap other)

/-- The bit at an offset. -/
def getBit (key : String) (offset : UInt64) : StoreM Bool := do
  return test (← read key) offset

/-- The number of ones. -/
def bitCount (key : String) : StoreM UInt64 := do
  return UInt64.ofNat (count (← read key))

end StructuredStore.Bitmap

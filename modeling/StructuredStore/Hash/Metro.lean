import StructuredStore.Bytes

/-!
# Metro hash

A fast 64-bit hash of a byte string: stripes of 32 bytes go through four lanes,
and what is left over is mixed in by pieces of 16, 8, 4, 2 and 1 bytes.
-/

namespace StructuredStore.Metro

/-- The multipliers of the hash. -/
def k0 : UInt64 := 0xD6D018F5

def k1 : UInt64 := 0xA2AA033B

def k2 : UInt64 := 0x62992FC1

def k3 : UInt64 := 0x30BC5B29

/-- The word with its bits moved around to the right. -/
def rotateRight (x : UInt64) (count : Nat) : UInt64 :=
  (x >>> UInt64.ofNat count) ||| (x <<< UInt64.ofNat (64 - count))

/-- The first bytes as a little-endian number. -/
def word (width : Nat) (bytes : Bytes) : UInt64 :=
  UInt64.ofNat (Bytes.ofLittleEndian (bytes.take width))

/-- The four lanes. -/
structure Lanes where
  v0 : UInt64
  v1 : UInt64
  v2 : UInt64
  v3 : UInt64

/-- Takes one stripe of 32 bytes into the lanes. -/
def Lanes.absorb (v : Lanes) (stripe : Bytes) : Lanes :=
  let v0 := rotateRight (v.v0 + word 8 stripe * k0) 29 + v.v2
  let v1 := rotateRight (v.v1 + word 8 (stripe.drop 8) * k1) 29 + v.v3
  let v2 := rotateRight (v.v2 + word 8 (stripe.drop 16) * k2) 29 + v0
  let v3 := rotateRight (v.v3 + word 8 (stripe.drop 24) * k3) 29 + v1
  ⟨v0, v1, v2, v3⟩

/-- What the lanes add to the hash. -/
def Lanes.finish (v : Lanes) : UInt64 :=
  let v2 := v.v2 ^^^ rotateRight ((v.v0 + v.v3) * k0 + v.v1) 37 * k1
  let v3 := v.v3 ^^^ rotateRight ((v.v1 + v2) * k1 + v.v0) 37 * k0
  let v0 := v.v0 ^^^ rotateRight ((v.v0 + v2) * k0 + v3) 37 * k1
  let v1 := v.v1 ^^^ rotateRight ((v.v1 + v3) * k1 + v2) 37 * k0
  v0 ^^^ v1

/-- Takes all whole stripes into the lanes and answers what is left over. -/
def absorbStripes (v : Lanes) (bytes : Bytes) : Lanes × Bytes :=
  if _h : 32 ≤ bytes.length then absorbStripes (v.absorb bytes) (bytes.drop 32)
  else (v, bytes)
termination_by bytes.length
decreasing_by simp; omega

/-- Mixes in a piece of 16 bytes, if there is one. -/
def mixPair (h : UInt64) (bytes : Bytes) : UInt64 × Bytes :=
  if 16 ≤ bytes.length then
    let v0 := rotateRight (h + word 8 bytes * k2) 29 * k3
    let v1 := rotateRight (h + word 8 (bytes.drop 8) * k2) 29 * k3
    let v0 := v0 ^^^ (rotateRight (v0 * k0) 21 + v1)
    let v1 := v1 ^^^ (rotateRight (v1 * k3) 21 + v0)
    (h + v1, bytes.drop 16)
  else (h, bytes)

/-- Mixes in a piece of the given width, if there is one. -/
def mixPiece (width rotation : Nat) (state : UInt64 × Bytes) : UInt64 × Bytes :=
  let (h, bytes) := state
  if width ≤ bytes.length then
    let h := h + word width bytes * k3
    (h ^^^ rotateRight h rotation * k1, bytes.drop width)
  else state

/-- The hash of a byte string. -/
def hash (seed : UInt64) (bytes : Bytes) : UInt64 :=
  let start := (seed + k2) * k0
  let (h, rest) :=
    if 32 ≤ bytes.length then
      let (lanes, rest) := absorbStripes ⟨start, start, start, start⟩ bytes
      (start + lanes.finish, rest)
    else (start, bytes)
  let (h, _) :=
    mixPair h rest |> mixPiece 8 55 |> mixPiece 4 26 |> mixPiece 2 48 |> mixPiece 1 37
  let h := h ^^^ rotateRight h 28
  let h := h * k0
  h ^^^ rotateRight h 29

end StructuredStore.Metro

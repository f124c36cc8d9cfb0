/-!
# Kinds of values

The kind of a stored value, its one-byte tag and its name in messages.  The
tags are part of the storage format.

Main results:

- `ofTag?_tag`, `tag_of_ofTag?`: tags and kinds determine each other.
-/

namespace StructuredStore

/-- The kind of a stored value. -/
inductive Kind where
  | null
  | int
  | float
  | decimal
  | bigInt
  | text
  | bool
  | timestamp
  | time
  | duration
  | binary
  | uuid
  | list
  | map
  | set
  | series
  | bloom
  | password
  | encrypted
  | share
  | bitmap
deriving DecidableEq, Repr, Inhabited

namespace Kind

/-- The tag byte at the start of a frame of this kind. -/
def tag : Kind → UInt8
  | .null => 0x00
  | .int => 0x01
  | .float => 0x02
  | .decimal => 0x03
  | .bigInt => 0x04
  | .text => 0x05
  | .bool => 0x06
  | .timestamp => 0x07
  | .time => 0x08
  | .duration => 0x09
  | .binary => 0x0a
  | .uuid => 0x0b
  | .list => 0x10
  | .map => 0x11
  | .set => 0x12
  | .series => 0x13
  | .bloom => 0x14
  | .password => 0x15
  | .encrypted => 0x16
  | .share => 0x17
  | .bitmap => 0x18

/-- All kinds, by increasing tag. -/
def all : List Kind :=
  [.null, .int, .float, .decimal, .bigInt, .text, .bool, .timestamp, .time,
    .duration, .binary, .uuid, .list, .map, .set, .series, .bloom, .password,
    .encrypted, .share, .bitmap]

/-- The kind with the given tag, if there is one. -/
def ofTag? (tag : UInt8) : Option Kind :=
  all.find? fun kind => kind.tag == tag

/-- The name of the kind in messages. -/
def name : Kind → String
  | .null => "null"
  | .int => "int64"
  | .float => "float64"
  | .decimal => "decimal"
  | .bigInt => "biginteger"
  | .text => "string"
  | .bool => "bool"
  | .timestamp => "timestamp"
  | .time => "time"
  | .duration => "duration"
  | .binary => "binary"
  | .uuid => "uuid"
  | .list => "list"
  | .map => "map"
  | .set => "set"
  | .series => "timeseries"
  | .bloom => "bloomfilter"
  | .password => "password"
  | .encrypted => "encrypted"
  | .share => "secretshare"
  | .bitmap => "bitmap"

/-- The kind with the given name, if there is one. -/
def ofName? (name : String) : Option Kind :=
  all.find? fun kind => kind.name == name

/-- Whether a value of this kind owns item keys besides its own key. -/
def isStructure : Kind → Bool
  | .list | .map | .set | .series | .bloom => true
  | _ => false

/-- The tag of a kind is read as the kind. -/
@[simp]
theorem ofTag?_tag (kind : Kind) : ofTag? kind.tag = some kind := by
  cases kind <;> rfl

/-- A tag that is read is that of the kind. -/
theorem tag_of_ofTag? {tag : UInt8} {kind : Kind} (h : ofTag? tag = some kind) :
    kind.tag = tag := by
  have h := List.find?_some h
  simpa using h

end Kind
end StructuredStore

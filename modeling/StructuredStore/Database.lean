import StructuredStore.Config.Reader
import StructuredStore.Engine.Table
import StructuredStore.Text.Utf8

/-!
# Databases on disk

What lies on disk between two openings of a store, how a store is opened from
it and what it leaves behind.  Memory starts empty and leaves nothing.  A
database is bound to the size of its segments; a temporary one is removed when
the store is closed or could not be opened.

Main results:

- `openTable_leave`: a lasting database gives back the rows it was closed with.
-/

namespace StructuredStore

/-- A database on disk while it is closed. -/
structure Database where
  /-- The size of the segments that its rows are written in. -/
  segment : UInt64
  table : Table
deriving DecidableEq

/-! ## Opening and closing -/

namespace StorageConfig

/-- The path of a database that none was chosen for. -/
def unchosenPath : String := "default.sled"

/-- The path that a database is kept at, if it is.  A temporary one that no path
was chosen for lies out of sight. -/
def place? (storage : StorageConfig) : Option String :=
  if storage.kind = .memory || (storage.temporary && storage.path = unchosenPath) then none
  else some storage.path

/-- Whether what lies at the path of the storage is removed although the store
could not be opened.  A size that is no power of two is refused too early for
that. -/
def isCleared (storage : StorageConfig) : Bool :=
  storage.temporary && isPowerOfTwo storage.writeBuffer.toNat

/-- The rows that a store starts with.  `found` is the database at the path of
the storage, or the fault met there. -/
def openTable (storage : StorageConfig) (found : Except IoFault (Option Database)) :
    Except StoreError Table :=
  match storage.fault?, storage.kind, found with
  | some fault, _, _ => .error (.io fault)
  | none, .memory, _ => .ok .empty
  | none, .disk, .error fault => .error (.io fault)
  | none, .disk, .ok none => .ok .empty
  | none, .disk, .ok (some database) =>
      if database.segment = storage.writeBuffer then .ok database.table
      else .error (.io .database)

/-- Whether closing the store leaves a database on disk. -/
def isLasting (storage : StorageConfig) : Bool :=
  storage.kind = .disk && !storage.temporary

/-- The database that lies at the path of the storage after a store with the
given rows was closed. -/
def leave (storage : StorageConfig) (found : Option Database) (table : Table) :
    Option Database :=
  match storage.kind with
  | .memory => found
  | .disk => if storage.temporary then none else some ⟨storage.writeBuffer, table⟩

/-- A lasting database gives back the rows it was closed with. -/
theorem openTable_leave {storage : StorageConfig} (hlasting : storage.isLasting = true)
    (hfault : storage.fault? = none) (found : Option Database) (table : Table) :
    storage.openTable (.ok (storage.leave found table)) = .ok table := by
  have h : storage.kind = .disk ∧ storage.temporary = false := by
    simpa [isLasting] using hlasting
  simp [openTable, leave, hfault, h.1, h.2]

end StorageConfig

/-- The configuration that a file describes, given its contents or the fault met
when it was read. -/
def Config.ofFile : Except IoFault Bytes → Except StoreError Config
  | .error fault => .error (.io fault)
  | .ok contents =>
      match Utf8.decode? contents with
      | none => .error (.io .notText)
      | some text => Config.ofText text

/-! ## Files of a database -/

namespace Database

/-- The name of the file with the settings that a database is bound to. -/
def settingsName : String := "conf"

/-- The name of the file with the rows of a database. -/
def rowsName : String := "db"

/-- The name of the folder for what does not fit into a row. -/
def overflowName : String := "blobs"

/-- A byte string behind its length. -/
def block (bytes : Bytes) : Bytes :=
  Bytes.littleEndian 8 bytes.length ++ bytes

/-- The byte string in front, and the rest. -/
def takeBlock? (bytes : Bytes) : Option (Bytes × Bytes) := do
  let (size, rest) ← Bytes.take? 8 bytes
  Bytes.take? (Bytes.ofLittleEndian size) rest

/-- The contents of the file with the settings: the size of the segments. -/
def encodeSettings (database : Database) : Bytes :=
  Bytes.littleEndian 8 database.segment.toNat

/-- The contents of the file with the rows, each a key and its contents. -/
def encodeRows (database : Database) : Bytes :=
  database.table.rows.flatMap fun row => block row.1 ++ block row.2

/-- The rows in a file, added to those of a table; `fuel` bounds their number. -/
def readRows? : Nat → Table → Bytes → Option Table
  | _, table, [] => some table
  | 0, _, _ :: _ => none
  | fuel + 1, table, byte :: bytes => do
      let (key, rest) ← takeBlock? (byte :: bytes)
      let (contents, rest) ← takeBlock? rest
      readRows? fuel (table.insert key contents) rest

/-- The database that files with settings and rows keep. -/
def decode? (settings rows : Bytes) : Option Database := do
  let (segment, _) ← Bytes.take? 8 settings
  let table ← readRows? rows.length .empty rows
  return ⟨UInt64.ofNat (Bytes.ofLittleEndian segment), table⟩

end Database
end StructuredStore

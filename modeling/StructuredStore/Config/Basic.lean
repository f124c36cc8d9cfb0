import StructuredStore.StoreError

/-!
# Configurations

How a store is to be opened.  Every setting has a default, so that a
configuration file mentions only what it changes.
-/

namespace StructuredStore

/-- Where the rows are kept. -/
inductive StorageKind where
  /-- In a database on disk. -/
  | disk
  /-- In memory, for as long as the store is open. -/
  | memory
deriving DecidableEq, Repr

/-- How the rows are kept. -/
structure StorageConfig where
  kind : StorageKind := .disk
  /-- Where the database lies; memory has no use for it. -/
  path : String := "tower.db"
  /-- How many bytes of the database are kept in memory. -/
  cacheCapacity : UInt64 := 67108864
  /-- The size of a write buffer, a power of two. -/
  writeBuffer : UInt64 := 8388608
  /-- The period at which writes are made durable, if there is one. -/
  flushEveryMs : Option UInt64 := some 500
  /-- Whether each write is durable before the next one. -/
  syncWrites : Bool := true
  /-- Whether the database is removed when the store is closed. -/
  temporary : Bool := false
deriving DecidableEq, Repr

/-- How keys are assigned locks. -/
inductive LockMode where
  /-- Each key has a lock of its own. -/
  | perKey
  /-- Keys share a fixed number of locks. -/
  | striped (stripes : UInt64)
deriving DecidableEq, Repr

/-- How keys expire. -/
structure ExpiryConfig where
  /-- The width of the slices of time, in seconds. -/
  precisionSecs : UInt64 := 60
  /-- The period of sweeps in the background. -/
  sweepIntervalMs : UInt64 := 1000
deriving DecidableEq, Repr

/-- How a store is to be opened. -/
structure Config where
  storage : StorageConfig := {}
  locks : LockMode := .perKey
  expiry : ExpiryConfig := {}
  /-- How often the clock is read; zero reads it whenever it is asked. -/
  clockRefreshMs : UInt64 := 100
deriving DecidableEq, Repr

namespace Config

/-- What is wrong with the settings, if anything. -/
def fault? (config : Config) : Option ConfigFault :=
  if config.expiry.precisionSecs = 0 then some .precision
  else if config.locks = .striped 0 then some .stripes
  else none

/-- The least cache in bytes that a database can work with. -/
def minCache : Nat := 256

/-- The least number of locks whose handles, of eight bytes each, are beyond all
memory. -/
def tooManyLocks : Nat := 1152921504606846976

/-- Whether a store can be set up with these settings.  They are allowed
nevertheless, and show only when the store is opened. -/
def isWorkable (config : Config) : Bool :=
  let cacheSuffices :=
    match config.storage.kind with
    | .memory => true
    | .disk => minCache ≤ config.storage.cacheCapacity.toNat
  let locksFit :=
    match config.locks with
    | .perKey => true
    | .striped stripes => stripes.toNat < tooManyLocks
  cacheSuffices && locksFit

/-- The configuration, if nothing is wrong with it. -/
def validate (config : Config) : Except StoreError Config :=
  match config.fault? with
  | none => .ok config
  | some fault => .error (.configuration fault)

end Config

namespace StorageConfig

/-- Whether a number is a power of two. -/
def isPowerOfTwo (n : Nat) : Bool :=
  n ≠ 0 && Nat.pow 2 n.log2 == n

/-- The least size of a segment of the database. -/
def minSegment : Nat := 256

/-- The greatest size of a segment of the database. -/
def maxSegment : Nat := 16777216

/-- Why a database cannot be opened with these settings, if so.  Memory can
always be had. -/
def fault? (storage : StorageConfig) : Option IoFault :=
  match storage.kind with
  | .memory => none
  | .disk =>
      let size := storage.writeBuffer.toNat
      if !isPowerOfTwo size then some (.writeBuffer size)
      else if size < minSegment ∨ maxSegment < size then some .database
      else none

end StorageConfig
end StructuredStore

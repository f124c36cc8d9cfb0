import StructuredStore.DataError

/-!
# Failures of store operations

Why an operation of the store, the reading of a configuration or the opening
of a database fails, and what breaks an operation off: arithmetic that goes
unchecked, or a buffer that cannot be had.
-/

namespace StructuredStore

/-- What is wrong with a configuration. -/
inductive ConfigFault where
  /-- The text is not a configuration. -/
  | malformed
  /-- The width of the expiry buckets is zero. -/
  | precision
  /-- The number of lock stripes is zero. -/
  | stripes
deriving DecidableEq, Repr

/-- What the layer below the store reports. -/
inductive IoFault where
  /-- A call that was made to fail. -/
  | injected
  | noSuchFile
  | isDirectory
  /-- A file that should hold text does not. -/
  | notText
  /-- The size of the write buffer is not a power of two. -/
  | writeBuffer (size : Nat)
  /-- The database on disk cannot be opened. -/
  | database
deriving DecidableEq, Repr

/-- What breaks an operation off. -/
inductive Abort where
  /-- An unchecked sum leaves the range of its 64-bit number. -/
  | sum
  /-- So does an unchecked difference. -/
  | difference
  /-- A buffer would be larger than the largest one. -/
  | buffer
deriving DecidableEq, Repr

/-- Why an operation does not answer. -/
inductive StoreError where
  /-- The key, or the field, member or instant inside a structure, is absent. -/
  | notFound
  /-- A structure cannot be created over a key that holds something. -/
  | alreadyExists
  /-- The key holds another kind than the operation works on. -/
  | typeMismatch (expected found : Kind)
  /-- Stored data violates an invariant. -/
  | corrupt (cause : Corruption)
  /-- An index or an argument lies outside its range. -/
  | outOfRange
  /-- The key lies in the namespace of the expiry buckets. -/
  | reservedKey (key : String)
  /-- The list has no item to remove. -/
  | empty
  | overflow
  | divideByZero
  | encryptionFailure (reason : String)
  | decryptionFailure (reason : String)
  /-- No provider is registered under the algorithm's name. -/
  | unknownAlgorithm (name : String)
  | configuration (fault : ConfigFault)
  | io (fault : IoFault)
  /-- The operation breaks off where it stands.  No caller takes this for a failure
  that it could pass over. -/
  | aborted (cause : Abort)
deriving DecidableEq, Repr

/-- The wording of what breaks an operation off. -/
def Abort.message : Abort → String
  | .sum => "attempt to add with overflow"
  | .difference => "attempt to subtract with overflow"
  | .buffer => "capacity overflow"

/-- The wording of a bad configuration; what is malformed has none of its own. -/
def ConfigFault.message : ConfigFault → String
  | .malformed => "malformed text"
  | .precision => "expiry.precision_secs must be positive"
  | .stripes => "locks.stripes must be positive"

/-- The wording of a failure below the store. -/
def IoFault.message : IoFault → String
  | .injected => "injected"
  | .noSuchFile => "No such file or directory (os error 2)"
  | .isDirectory => "Is a directory (os error 21)"
  | .notText => "stream did not contain valid UTF-8"
  | .writeBuffer size =>
      "bad engine configuration: write_buffer " ++ Numeral.ofNat size ++
        " is not a power of two"
  | .database => "the database cannot be opened"

/-- How many causes lie below a failure of the layer below the store: the layer
itself, and the operation that failed in it. -/
def IoFault.causes : IoFault → Nat
  | .writeBuffer _ => 1
  | _ => 2

namespace StoreError

/-- A fault of data as a failure of the operation that met it. -/
def ofData : DataError → StoreError
  | .typeMismatch expected found => .typeMismatch expected found
  | .corrupt cause => .corrupt cause
  | .unknownTag tag => .corrupt (.unknownTag tag)
  | .overflow => .overflow
  | .divideByZero => .divideByZero

/-- The wording of a failure. -/
def message : StoreError → String
  | .notFound => "Key not found"
  | .alreadyExists => "Key already exists"
  | .typeMismatch expected found =>
      "Wrong type: expected " ++ expected.name ++ ", found " ++ found.name
  | .corrupt cause => "Corrupt data: " ++ cause.message
  | .outOfRange => "Index out of range"
  | .reservedKey key => "Reserved key: " ++ key
  | .empty => "List is empty"
  | .overflow => "Numeric overflow"
  | .divideByZero => "Division by zero"
  | .encryptionFailure reason => "Encryption failed: " ++ reason
  | .decryptionFailure reason => "Decryption failed: " ++ reason
  | .unknownAlgorithm name => "Unknown algorithm: " ++ name
  | .configuration fault => "Bad configuration: " ++ fault.message
  | .io fault => fault.message
  | .aborted cause => cause.message

/-- The number of causes below a failure. -/
def causes : StoreError → Nat
  | .io fault => fault.causes
  | _ => 0

end StoreError
end StructuredStore

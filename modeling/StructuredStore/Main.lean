import Std.Async.Signal
import Std.Time.DateTime.Timestamp
import StructuredStore.Program

/-!
# The program

Reads the arguments, the configuration file and the database, does the command
and writes the database back.  What is decided is decided elsewhere; here are
the files, the clock, the source of salts and the interrupt.
-/

namespace StructuredStore.Main

/-! ## Files -/

/-- The contents of a file, or why there are none. -/
def readFile (path : String) : IO (Except IoFault Bytes) := do
  try
    return .ok (← IO.FS.readBinFile path).toList
  catch
    | .noFileOrDirectory .. => return .error .noSuchFile
    | _ => return .error .isDirectory

/-- The database at the path of the storage, whose folder is made if there is
none.  Nothing is looked for on disk if the storage has no use for it. -/
def findDatabase (storage : StorageConfig) : IO (Except IoFault (Option Database)) := do
  if storage.fault?.isSome then return .ok none
  let some path := storage.place? | return .ok none
  try
    IO.FS.createDirAll (Path.join path Database.overflowName)
  catch _ => return .error .database
  let settings ← readFile (Path.join path Database.settingsName)
  let rows ← readFile (Path.join path Database.rowsName)
  match settings, rows with
  | .error .noSuchFile, .error .noSuchFile => return .ok none
  | .ok settings, .ok rows =>
      match Database.decode? settings rows with
      | none => return .error .database
      | some database => return .ok (some database)
  | _, _ => return .error .database

/-- Writes a file in place of the one of its name in a folder. -/
def replaceFile (folder name : String) (contents : Bytes) : IO Unit := do
  let draft := Path.join folder (name ++ ".new")
  IO.FS.writeBinFile draft ⟨contents.toArray⟩
  IO.FS.rename draft (Path.join folder name)

/-- Writes a database in place of the one at its path. -/
def writeDatabase (path : String) (database : Database) : IO Unit := do
  replaceFile path Database.settingsName database.encodeSettings
  replaceFile path Database.rowsName database.encodeRows

/-- Removes a folder and all that lies in it, as far as that can be done. -/
def removeFolder (path : String) : IO Unit := do
  try
    IO.FS.removeDirAll path
  catch _ => return

/-- Leaves on disk what a store with the given rows leaves there. -/
def closeStore (storage : StorageConfig) (table : Table) : IO Unit := do
  let some path := storage.place? | return
  match storage.leave none table with
  | none => removeFolder path
  | some database => writeDatabase path database

/-- Leaves on disk what a store that could not be opened leaves there. -/
def abandonStore (storage : StorageConfig) : IO Unit := do
  let some path := storage.place? | return
  if storage.isCleared then removeFolder path

/-! ## Time and chance -/

/-- The time of the system. -/
def readClock : IO Instant := do
  let now ← Std.Time.Timestamp.now
  return .ofInt64 (Int64.ofInt now.toNanosecondsSinceUnixEpoch.val)

/-- A new salt: thirty-two random hexadecimal digits. -/
def drawSalt : IO String := do
  let bytes ← IO.getRandomBytes 16
  return String.ofList (Value.hexDigits bytes.toList)

/-! ## Watching -/

/-- Waits for a number of milliseconds, or until the program is interrupted.
Answers whether it was. -/
def pause (interrupted : BaseIO Bool) (milliseconds : Nat) : IO Bool := do
  if ← interrupted then return true
  if milliseconds = 0 then return false
  let slice := min milliseconds 100
  IO.sleep slice.toUInt32
  pause interrupted (milliseconds - slice)
termination_by milliseconds

/-- Waits until the program is interrupted. -/
partial def awaitInterrupt (interrupted : BaseIO Bool) : IO Unit := do
  unless ← pause interrupted 100 do awaitInterrupt interrupted

/-- Sweeps once every period until the program is interrupted, and answers the
rows at that time.  After a sweep that broke off it only waits. -/
partial def watch (config : Config) (width : BucketWidth) (interrupted : BaseIO Bool)
    (table : Table) : IO Table := do
  if ← pause interrupted config.expiry.sweepIntervalMs.toNat then return table
  let (table, continues) := CommandLine.watchRound ⟨← readClock, width, .none⟩ table
  if config.storage.isLasting then
    writeDatabase config.storage.path ⟨config.storage.writeBuffer, table⟩
  unless continues do
    awaitInterrupt interrupted
    return table
  watch config width interrupted table

/-- Watches until an interrupt. -/
def watchUntilInterrupt (config : Config) (width : BucketWidth) (table : Table) : IO Table := do
  let waiter ← Std.Async.Signal.Waiter.mk .sigint false
  let arrival ← waiter.wait
  watch config width (IO.hasFinished arrival) table

/-! ## Runs -/

/-- Does a command on an open store and closes the store. -/
def serve (config : Config) (width : BucketWidth) (command : CommandLine.Command)
    (table : Table) : IO Outcome := do
  match command with
  | .sweep true => do
      let table ← watchUntilInterrupt config width table
      closeStore config.storage table
      return .success ""
  | command => do
      let env : Environment := ⟨← readClock, width, .none⟩
      let (outcome, table) := command.serve env (← drawSalt) table
      closeStore config.storage table
      return outcome

/-- A whole run; what hinders it from opening the store is reported beside its
output. -/
def run (args : List String) : IO Outcome := do
  let some invocation := CommandLine.Invocation.ofArguments? args
    | IO.eprintln "The arguments do not make a command."
      return .failure ""
  let contents ← (invocation.config.mapM fun file => readFile file : IO _)
  match invocation.configuration fun _ => contents.getD (.error .noSuchFile) with
  | .error e =>
      IO.eprintln e.message
      return .failure ""
  | .ok config =>
      match config.storage.openTable (← findDatabase config.storage) with
      | .error e =>
          abandonStore config.storage
          IO.eprintln e.message
          return .failure ""
      | .ok table =>
          match config.width? with
          | none =>
              closeStore config.storage table
              return .aborted ""
          | some width => serve config width invocation.command table

end StructuredStore.Main

/-- Runs the program and ends with the status of its outcome. -/
def main (args : List String) : IO UInt32 := do
  let outcome ← StructuredStore.Main.run args
  IO.print outcome.output
  return outcome.status.toUInt32

import StructuredStore.CommandLine.Run
import StructuredStore.Directory

/-!
# Runs of the program

A run of the program reads its arguments, finds its configuration, opens the
store, does one command and closes the store.  Arguments that are refused, a
bad configuration and a store that cannot be opened show nothing; the failure
of a command is shown in place of its answer.

Main definitions:

- `Invocation.configuration`: how the arguments say to open the store.
- `Command.serve`: what a command shows, and the rows after it.
- `Program.run`: a whole run in a directory.
-/

namespace StructuredStore

/-! ## Outcomes -/

/-- What a run of the program shows, and the status it ends with. -/
structure Outcome where
  status : Nat
  output : String
deriving DecidableEq, Repr

namespace Outcome

/-- A run that did what it was asked to. -/
def success (output : String) : Outcome := ⟨0, output⟩

/-- A run that could not do what it was asked to. -/
def failure (output : String) : Outcome := ⟨1, output⟩

/-- A run that broke off, at something that it cannot hold or cannot show. -/
def aborted (output : String) : Outcome := ⟨101, output⟩

end Outcome

/-! ## Opening the store -/

namespace CommandLine.Invocation

/-- The path of the database in a directory. -/
def databaseIn (directory : String) : String := Path.join directory "tower.db"

/-- How to open the store.  A directory among the arguments wins over the path
in the configuration file, which `read` gives the contents of. -/
def configuration (invocation : Invocation) (read : String → Except IoFault Bytes) :
    Except StoreError Config := do
  let config ←
    match invocation.config with
    | none => pure {}
    | some file => Config.ofFile (read file)
  match invocation.path with
  | none => return config
  | some directory =>
      return { config with storage := { config.storage with path := databaseIn directory } }

end CommandLine.Invocation

/-- The width of the slices of time in a store with these settings, if it can be
set up. -/
def Config.width? (config : Config) : Option BucketWidth :=
  if config.isWorkable then BucketWidth.ofSeconds? config.expiry.precisionSecs else none

/-! ## Commands on an open store -/

namespace CommandLine

/-- One round of watching: a sweep, whose outcome is not shown.  Gives the rows after
it, and whether more rounds follow: none does once a sweep broke off. -/
def watchRound (env : Environment) (table : Table) : Table × Bool :=
  match (Expiry.sweep env.width env.now).run (Engine.ofTable table) with
  | (.error (.aborted _), engine) => (engine.table, false)
  | (_, engine) => (engine.table, true)

/-- What a command shows, and the rows after it.  A watch is one round here;
whoever runs it decides when it ends. -/
def Command.serve (env : Environment) (salt : String) (command : Command) (table : Table) :
    Outcome × Table :=
  match command with
  | .sweep true => (.success "", (watchRound env table).1)
  | command =>
      match (command.run env salt).run (Engine.ofTable table) with
      | (.ok text, engine) => (.success text, engine.table)
      | (.error (.unshowable shown), engine) => (.aborted shown, engine.table)
      | (.error (.store (.aborted _)), engine) => (.aborted "", engine.table)
      | (.error failure, engine) => (.failure (line failure.message), engine.table)

end CommandLine

/-! ## Whole runs -/

namespace Program

/-- What a run of the program does in a directory.  `now` is the time of the
run, and `salt` is for a membership filter that it may create. -/
def run (now : Instant) (salt : String) (args : List String) (directory : Directory) :
    Outcome × Directory :=
  match CommandLine.Invocation.ofArguments? args with
  | none => (.failure "", directory)
  | some invocation =>
      match invocation.configuration directory.read with
      | .error _ => (.failure "", directory)
      | .ok config =>
          let (directory, found) := directory.enter config.storage
          match config.storage.openTable found with
          | .error _ => (.failure "", directory.abandon config.storage)
          | .ok table =>
              match config.width? with
              | none => (.aborted "", directory.close config.storage table)
              | some width =>
                  let env : Environment := ⟨now, width, .none⟩
                  let (outcome, table) := invocation.command.serve env salt table
                  (outcome, directory.close config.storage table)

end Program
end StructuredStore

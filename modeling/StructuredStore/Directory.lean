import StructuredStore.Database
import StructuredStore.Path

/-!
# Directories

What a run of the program finds around it and leaves behind: files, folders and
databases, each at its place.  A path is followed name by name, and every place
on its way has to be a folder.  A database has files of its own in its folder.

Main results:

- `databaseAt_put`: a database is found where it was put.
-/

namespace StructuredStore

/-- What lies at a place. -/
inductive Entry where
  | file (contents : Bytes)
  | folder
  /-- A folder that holds a database. -/
  | database (database : Database)

/-- What lies in a directory and where. -/
structure Directory where
  entries : List (Path × Entry)

namespace Directory

/-! ## Places -/

/-- A directory with nothing in it. -/
def empty : Directory := ⟨[]⟩

/-- What was put at a place itself. -/
def stored? (directory : Directory) (path : Path) : Option Entry :=
  (directory.entries.find? fun entry => entry.1 == path).map (·.2)

/-- What a database has under a name in its folder, for its own use. -/
def ownEntry? (name : String) : Option Entry :=
  if name = Database.settingsName ∨ name = Database.rowsName then some (.file [])
  else if name = Database.overflowName then some .folder
  else none

/-- What lies at a place. -/
def entry? (directory : Directory) (path : Path) : Option Entry :=
  match directory.stored? path with
  | some entry => some entry
  | none =>
      if Path.isGiven path then some .folder
      else
        match directory.stored? path.dropLast, path.getLast? with
        | some (.database _), some name => ownEntry? name
        | _, _ => none

/-- Whether a folder lies at a place. -/
def isFolder (directory : Directory) (path : Path) : Bool :=
  match directory.entry? path with
  | none => false
  | some (.file _) => false
  | some _ => true

/-- The directory with something at a place, over what was there. -/
def insert (directory : Directory) (path : Path) (entry : Entry) : Directory :=
  ⟨(path, entry) :: directory.entries.filter fun other => other.1 != path⟩

/-- Where names lead to from a place. -/
def walk (directory : Directory) : Path → List String → Option Path
  | path, [] => some path
  | path, name :: names =>
      if !directory.isFolder path then none
      else if Path.isStay name then walk directory path names
      else if name = ".." then walk directory (Path.parent path) names
      else if (directory.entry? (path ++ [name])).isSome then
        walk directory (path ++ [name]) names
      else none

/-- The place that a path leads to. -/
def locate (directory : Directory) (text : String) : Option Path :=
  if Path.isAskable text then directory.walk (Path.start text) (Path.names text) else none

/-- Follows names from a place and makes the folders that are missing.  A file on
the way or a name that is too long stops it; what was made before stays. -/
def makeFolders : Directory → Path → List String → Directory × Option Path
  | directory, path, [] => (directory, if directory.isFolder path then some path else none)
  | directory, path, name :: names =>
      if !directory.isFolder path then (directory, none)
      else if Path.isStay name then makeFolders directory path names
      else if name = ".." then makeFolders directory (Path.parent path) names
      else if (directory.entry? (path ++ [name])).isSome then
        makeFolders directory (path ++ [name]) names
      else if Path.maxName < name.utf8ByteSize then (directory, none)
      else makeFolders (directory.insert (path ++ [name]) .folder) (path ++ [name]) names

/-! ## Files -/

/-- The directory with a file, in folders that are made for it. -/
def addFile (directory : Directory) (text : String) (contents : Bytes) : Directory :=
  let names := Path.names text
  match directory.makeFolders (Path.start text) names.dropLast with
  | (directory, none) => directory
  | (directory, some path) => directory.insert (path ++ [names.getLastD ""]) (.file contents)

/-- A directory with files at paths. -/
def ofFiles (files : List (String × Bytes)) : Directory :=
  files.foldl (fun directory file => directory.addFile file.1 file.2) empty

/-- The contents of the file at a path, or why there are none. -/
def read (directory : Directory) (text : String) : Except IoFault Bytes :=
  if text.isEmpty then .error .noSuchFile
  else
    match (directory.locate text).bind directory.entry? with
    | some (.file contents) => .ok contents
    | some _ => .error .isDirectory
    | none => .error .noSuchFile

/-! ## Databases -/

/-- The database at a place, if there is one. -/
def databaseAt (directory : Directory) (path : Path) : Option Database :=
  match directory.stored? path with
  | some (.database database) => some database
  | _ => none

/-- The directory with a database at a place. -/
def put (directory : Directory) (path : Path) (database : Database) : Directory :=
  directory.insert path (.database database)

/-- Makes the folder of a storage and finds the database in it, or the fault met
on the way there.  Bad settings are refused before. -/
def enter (directory : Directory) (storage : StorageConfig) :
    Directory × Except IoFault (Option Database) :=
  match storage.fault?, storage.place? with
  | none, some text =>
      if Path.isAskable (Path.join text Database.overflowName) then
        match directory.makeFolders (Path.start text) (Path.names text) with
        | (directory, some path) => (directory, .ok (directory.databaseAt path))
        | (directory, none) => (directory, .error .database)
      else (directory, .error .database)
  | _, _ => (directory, .ok none)

/-- The directory without all that lies in a folder.  The folder goes too, unless
the path ends in dots.  A path that leads to no folder removes nothing, nor does
the empty one. -/
def remove (directory : Directory) (text : String) : Directory :=
  match directory.locate text with
  | none => directory
  | some path =>
      if text.isEmpty || !directory.isFolder path then directory
      else
        let left : Directory := ⟨directory.entries.filter fun entry => !Path.leadsTo path entry.1⟩
        if Path.endsInDots text then left.insert path .folder else left

/-- The directory after a store with the given storage and rows was closed. -/
def close (directory : Directory) (storage : StorageConfig) (table : Table) : Directory :=
  match storage.place? with
  | none => directory
  | some text =>
      match storage.leave none table, directory.locate text with
      | none, _ => directory.remove text
      | some database, some path => directory.put path database
      | some _, none => directory

/-- The directory after a store with the given storage could not be opened. -/
def abandon (directory : Directory) (storage : StorageConfig) : Directory :=
  match storage.place? with
  | none => directory
  | some text => if storage.isCleared then directory.remove text else directory

/-- A database is found where it was put. -/
theorem databaseAt_put (directory : Directory) (path : Path) (database : Database) :
    (directory.put path database).databaseAt path = some database := by
  simp [databaseAt, put, insert, stored?]

end Directory
end StructuredStore

import StructuredStore.Config.Basic
import StructuredStore.Config.Scanner

/-!
# Reading configurations

A configuration text is a nest of parenthesised groups of named settings, each
group with an optional name in front.  Settings that are not known are passed
over; one that is known may be given only once.  The text may start with
attributes that switch extensions on.

Main definitions:

- `Config.ofText`: the configuration that a text describes.
-/

namespace StructuredStore.Config

open Scan

/-! ## Extensions -/

/-- The extensions that attributes may switch on, and whether they make an
optional value stand without its wrapping. -/
def extension? (name : String) : Option Bool :=
  if name = "implicit_some" then some true
  else if name = "unwrap_newtypes" then some false
  else none

/-- Takes the names within an attribute; `fuel` bounds their number. -/
def extensionNames : Nat → Bool → Scan Bool
  | 0, _ => failure
  | fuel + 1, implicit => do
      let some flag := extension? (← identifier) | failure
      let more ← comma
      let goesOn := ((← get).head?.map isIdentifierPart).getD false
      if goesOn then
        if more then extensionNames fuel (implicit || flag) else failure
      else return implicit || flag

/-- Takes fixed texts with blanks behind each of them. -/
def expectAll : List String → Scan Unit
  | [] => pure ()
  | word :: words => do
      expect word
      skipBlank
      expectAll words

/-- Takes the attributes in front; `fuel` bounds their number. -/
def attributes : Nat → Bool → Scan Bool
  | 0, _ => failure
  | fuel + 1, implicit => do
      if (← get).head? = some '#' then
        expectAll ["#", "!", "[", "enable", "("]
        let implicit ← extensionNames fuel implicit
        skipBlank
        expectAll [")", "]"]
        attributes fuel implicit
      else return implicit

/-! ## Groups of settings -/

/-- The settings of a group: how each known one changes the result. -/
abbrev Settings (σ : Type) := List (String × (σ → Scan σ))

/-- Takes settings up to the closing parenthesis; `given` names those already
read and `fuel` bounds their number. -/
def settingsRest {σ : Type} (settings : Settings σ) (implicit : Bool) :
    Nat → List String → σ → Scan σ
  | 0, _, _ => failure
  | fuel + 1, given, state => do
      skipBlank
      if ← accept ")" then return state
      let name ← identifier
      let setting := settings.find? fun setting => setting.1 == name
      if setting.isSome && given.contains name then failure
      skipBlank
      expect ":"
      skipBlank
      let state ←
        match setting with
        | some setting => setting.2 state
        | none => do
            skipAny implicit
            pure state
      if ← comma then settingsRest settings implicit fuel (name :: given) state
      else
        expect ")"
        return state

/-- Takes a group of settings with an optional name. -/
def group {σ : Type} (name : String) (settings : Settings σ) (implicit : Bool)
    (start : σ) : Scan σ := do
  let _ ← accept name
  skipBlank
  expect "("
  let fuel := (← get).length + 1
  settingsRest settings implicit fuel [] start

/-- Takes an optional number.  It is wrapped, or, with the extension for it,
stands alone and is not wrapped. -/
def optionalNumber (implicit : Bool) : Scan (Option UInt64) := do
  if ← accept "None" then return none
  if implicit then return some (← uint64)
  expect "Some"
  skipBlank
  expect "("
  skipBlank
  let n ← uint64
  skipBlank
  expect ")"
  return some n

/-! ## The settings -/

/-- Takes the kind of storage. -/
def storageKind : Scan StorageKind := do
  match ← identifier with
  | "Sled" => return .disk
  | "Memory" => return .memory
  | _ => failure

/-- The settings of the storage. -/
def storageSettings (implicit : Bool) : Settings StorageConfig :=
  [("kind", fun s => do return { s with kind := ← storageKind }),
    ("path", fun s => do return { s with path := ← text }),
    ("cache_capacity", fun s => do return { s with cacheCapacity := ← uint64 }),
    ("write_buffer", fun s => do return { s with writeBuffer := ← uint64 }),
    ("flush_every_ms", fun s => do return { s with flushEveryMs := ← optionalNumber implicit }),
    ("sync_writes", fun s => do return { s with syncWrites := ← bool }),
    ("temporary", fun s => do return { s with temporary := ← bool })]

/-- Takes the number of stripes of a lock mode, which has no default. -/
def stripes (implicit : Bool) : Scan UInt64 := do
  skipBlank
  let settings : Settings (Option UInt64) :=
    [("stripes", fun _ => do return some (← uint64))]
  let some n ← group "" settings implicit none | failure
  return n

/-- Takes a lock mode. -/
def lockMode (implicit : Bool) : Scan LockMode := do
  match ← identifier with
  | "PerKey" => return .perKey
  | "Striped" => return .striped (← stripes implicit)
  | _ => failure

/-- The settings of expiry. -/
def expirySettings : Settings ExpiryConfig :=
  [("precision_secs", fun e => do return { e with precisionSecs := ← uint64 }),
    ("sweep_interval_ms", fun e => do return { e with sweepIntervalMs := ← uint64 })]

/-- The settings of a configuration. -/
def settings (implicit : Bool) : Settings Config :=
  [("storage", fun c => do
      return { c with storage := ← group "EngineConfig" (storageSettings implicit) implicit {} }),
    ("locks", fun c => do return { c with locks := ← lockMode implicit }),
    ("expiry", fun c => do
      return { c with expiry := ← group "ExpiryConfig" expirySettings implicit {} }),
    ("clock_refresh_ms", fun c => do return { c with clockRefreshMs := ← uint64 })]

/-- Takes a whole configuration text. -/
def document : Scan Config := do
  skipBlank
  let implicit ← attributes ((← get).length + 1) false
  let config ← group "TowerConfig" (settings implicit) implicit {}
  skipBlank
  if (← get).isEmpty then return config else failure

/-- The configuration that a text describes. -/
def ofText (text : String) : Except StoreError Config :=
  match document text.toList with
  | some (config, _) => config.validate
  | none => .error (.configuration .malformed)

end StructuredStore.Config

import StructuredStore.Binary64.Literal

/-!
# Command-line arguments

Arguments of a command are positional or options.  An option is given by its
long name or its letter, anywhere before a double dash; its value may be
attached to it or follow as the next argument, unless that one starts with a
dash.  An option may be given once.  A refused list of arguments has no result;
there is only one kind of refusal.
-/

namespace StructuredStore.CommandLine

/-! ## What a command takes -/

/-- An option of a command. -/
structure OptionSpec where
  name : String
  letter : Option Char
  takesValue : Bool
  /-- The values it may have; an empty list stands for all. -/
  allowed : List String
  /-- The value it has if it is given without one or not at all. -/
  fallback : Option String
deriving DecidableEq, Repr

/-- Which arguments a positional parameter takes. -/
inductive Arity where
  | one
  /-- At least one, up to the end. -/
  | many
  /-- One, or the given value if there is none. -/
  | optional (fallback : String)
deriving DecidableEq, Repr

/-- A positional parameter of a command. -/
structure PositionalSpec where
  name : String
  arity : Arity
deriving DecidableEq, Repr

/-- What a command takes. -/
structure CommandSpec where
  name : String
  positionals : List PositionalSpec
  options : List OptionSpec
  /-- Whether a number is no option although it starts with a dash. -/
  numbers : Bool
deriving DecidableEq, Repr

/-! ## Single arguments -/

/-- Whether an argument starts with a dash; a dash alone is a plain argument. -/
def isDashed (arg : String) : Bool :=
  arg.startsWith "-" && arg ≠ "-"

/-- Whether an argument reads as a number. -/
def isNumber (arg : String) : Bool :=
  (Numeral.readInt64 arg).isOk || (Binary64.ofLiteral arg).isOk

/-- What follows the characters of a kind in front. -/
def trimLeading (c : Char) (cs : List Char) : List Char :=
  cs.dropWhile (· == c)

/-- An option as it stands in one argument: its specification and the value
attached to it. -/
abbrev Mention := OptionSpec × Option String

/-- The name in an argument with two dashes: what stands in front of an equals
sign. -/
def longName (arg : String) : String :=
  String.ofList ((trimLeading '-' arg.toList).takeWhile (· ≠ '='))

/-- The option of an argument with two dashes; its value is what stands behind an
equals sign. -/
def longMention? (options : List OptionSpec) (arg : String) : Option Mention :=
  let value :=
    match arg.toList.dropWhile (· ≠ '=') with
    | [] => none
    | _ :: rest => some (String.ofList (trimLeading '=' rest))
  (options.find? fun option => option.name == longName arg).map fun option =>
    (option, if option.takesValue then value else none)

/-- The option of an argument with one dash: a letter, and the value behind it.
No option without a value has a letter. -/
def shortMention? (options : List OptionSpec) (arg : String) : Option Mention :=
  match trimLeading '-' arg.toList with
  | [] => none
  | c :: rest =>
      let value := if rest.isEmpty then none else some (String.ofList (trimLeading '=' rest))
      (options.find? fun option => option.letter == some c).map fun option => (option, value)

/-- Whether an argument has two dashes and a name that means nothing.  The name
that asks for help does mean something, but makes no command. -/
def isStrange (options : List OptionSpec) (arg : String) : Bool :=
  arg.startsWith "--" && longName arg ≠ "help" && (longMention? options arg).isNone

/-- The option that a dashed argument mentions. -/
def mention? (options : List OptionSpec) (arg : String) : Option Mention :=
  if arg.startsWith "--" then longMention? options arg else shortMention? options arg

/-! ## Lists of arguments -/

/-- Arguments taken apart: options and positional arguments, both in reverse. -/
structure Taken where
  /-- Each option with its value. -/
  options : List (String × Option String)
  positionals : List String
  /-- Whether any of the arguments was a number, where numbers are taken. -/
  hasNumber : Bool
deriving DecidableEq, Repr

namespace Taken

/-- No arguments. -/
def none : Taken := ⟨[], [], false⟩

/-- One more argument was seen. -/
def notice (taken : Taken) (arg : String) : Taken :=
  { taken with hasNumber := taken.hasNumber || isNumber arg }

/-- One more positional argument. -/
def addPositional (taken : Taken) (arg : String) : Taken :=
  { taken with positionals := arg :: taken.positionals }

/-- One more option, unless it was given before. -/
def addOption? (taken : Taken) (name : String) (value : Option String) : Option Taken :=
  if taken.options.any fun option => option.1 == name then .none
  else some { taken with options := (name, value) :: taken.options }

/-- The value that an option given without one was waiting for. -/
def setValue (taken : Taken) (name value : String) : Taken :=
  { taken with
    options := taken.options.map fun option =>
      if option.1 == name then (name, some value) else option }

end Taken

/-- Whether no option still waits for a value that it cannot do without: one that
has a fallback can. -/
def isServed : Option OptionSpec → Bool
  | none => true
  | some option => option.fallback.isSome

/-- Takes arguments apart.  `waiting` is an option that still waits for its
value; it may be left waiting by another option, a double dash or the end only
if it has a fallback.  Where numbers are taken, one of them is no option
although it starts with a dash, and a strange name behind one is a positional
argument.  A word of `commands` ends the list; the rest is that command's. -/
def takeArguments (options : List OptionSpec) (numbers : Bool) (commands : List String) :
    Option OptionSpec → Taken → List String → Option (Taken × List String)
  | waiting, taken, [] => if isServed waiting then some (taken, []) else none
  | waiting, taken, arg :: rest =>
      let taken := if numbers then taken.notice arg else taken
      if arg = "--" then
        if isServed waiting then some (rest.foldl Taken.addPositional taken, []) else none
      else if waiting.isNone && commands.contains arg then some (taken, arg :: rest)
      else if isDashed arg && !(numbers && isNumber arg) then
        if !isServed waiting then none
        else if numbers && taken.hasNumber && isStrange options arg then
          takeArguments options numbers commands none (taken.addPositional arg) rest
        else
          match mention? options arg with
          | none => none
          | some (option, value) =>
              match taken.addOption? option.name value with
              | none => none
              | some taken =>
                  let waiting := if option.takesValue && value.isNone then some option else none
                  takeArguments options numbers commands waiting taken rest
      else
        match waiting with
        | some option =>
            takeArguments options numbers commands none (taken.setValue option.name arg) rest
        | none => takeArguments options numbers commands none (taken.addPositional arg) rest

/-- Gives each positional parameter its arguments. -/
def assignPositionals : List PositionalSpec → List String → Option (List (String × List String))
  | [], [] => some []
  | [], _ :: _ => none
  | spec :: specs, args =>
      match spec.arity, args with
      | .one, [] => none
      | .one, arg :: args =>
          (assignPositionals specs args).map fun rest => (spec.name, [arg]) :: rest
      | .many, [] => none
      | .many, args => (assignPositionals specs []).map fun rest => (spec.name, args) :: rest
      | .optional fallback, [] =>
          (assignPositionals specs []).map fun rest => (spec.name, [fallback]) :: rest
      | .optional _, arg :: args =>
          (assignPositionals specs args).map fun rest => (spec.name, [arg]) :: rest

/-- The arguments of a command by the names of its parameters. -/
structure Matches where
  options : List (String × Option String)
  positionals : List (String × List String)
deriving DecidableEq, Repr

namespace Matches

/-- The arguments of a positional parameter. -/
def all (found : Matches) (name : String) : List String :=
  ((found.positionals.find? fun entry => entry.1 == name).map (·.2)).getD []

/-- The argument of a positional parameter. -/
def one (found : Matches) (name : String) : String :=
  (found.all name).headD ""

/-- Whether an option was given. -/
def given (found : Matches) (name : String) : Bool :=
  found.options.any fun option => option.1 == name

/-- The value of an option. -/
def value? (found : Matches) (name : String) : Option String :=
  (found.options.find? fun option => option.1 == name).bind (·.2)

end Matches

/-- Whether every option has a value that it may have. -/
def allowedValues (specs : List OptionSpec) (options : List (String × Option String)) : Bool :=
  options.all fun (name, value) =>
    specs.all fun spec =>
      spec.name ≠ name || spec.allowed.isEmpty || (value.map spec.allowed.contains).getD true

/-- The options with the fallbacks of those that have no value. -/
def withFallbacks (specs : List OptionSpec) (options : List (String × Option String)) :
    List (String × Option String) :=
  let fallbacks := specs.filterMap fun spec =>
    spec.fallback.map fun value => (spec.name, some value)
  options.filter (fun option => option.2.isSome || !(fallbacks.any fun f => f.1 == option.1)) ++
    fallbacks

/-- The arguments of a command by the names of its parameters. -/
def matchArguments (spec : CommandSpec) (args : List String) : Option Matches := do
  let (taken, _) ← takeArguments spec.options spec.numbers [] none .none args
  guard (allowedValues spec.options taken.options)
  let positionals ← assignPositionals spec.positionals taken.positionals.reverse
  return ⟨withFallbacks spec.options taken.options, positionals⟩

end StructuredStore.CommandLine

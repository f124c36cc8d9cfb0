import StructuredStore.CommandLine.Arguments
import StructuredStore.Store.Deque

/-!
# Commands

The commands of the command line, with their arguments as they were written:
what a value, a number or a time means is decided when the command runs.
-/

namespace StructuredStore.CommandLine

/-- How a written value is to be read. -/
inductive ValueType where
  | string
  | int
  | float
  | decimal
  | bool
deriving DecidableEq, Repr

/-- The names of the ways to read a value. -/
def ValueType.names : List (String × ValueType) :=
  [("string", .string), ("int", .int), ("float", .float), ("decimal", .decimal),
    ("bool", .bool)]

/-- A command. -/
inductive Command where
  | get (key : String)
  | set (key value : String) (type : ValueType)
  | delete (key : String)
  | contains (key : String)
  | increase (key amount : String)
  | push (key : String) (side : Deque.End) (values : List String) (type : ValueType)
  | pop (key : String) (side : Deque.End)
  | range (key start stop : String)
  | length (key : String)
  | mapSet (key field value : String) (type : ValueType)
  | mapGet (key field : String)
  | mapRemove (key field : String)
  | mapFields (key : String)
  | setAdd (key : String) (members : List String)
  | setRemove (key member : String)
  | setContains (key member : String)
  | setSize (key : String)
  | bloomAdd (key item : String) (slots : Option String)
  | bloomContains (key item : String)
  | seriesAdd (key time value : String) (type : ValueType)
  | seriesRange (key start stop : String)
  | expire (key seconds : String)
  | persist (key : String)
  | expiry (key : String)
  | sweep (watch : Bool)
  | repair (key : String)
deriving DecidableEq, Repr

/-! ## What each command takes -/

/-- An option that takes any text. -/
def textOption (name : String) : OptionSpec := ⟨name, none, true, [], none⟩

/-- The options of every command: the configuration file and the directory of
the database. -/
def globalOptions : List OptionSpec := [textOption "config", textOption "path"]

/-- The option that says how to read a value. -/
def typeOption : OptionSpec :=
  ⟨"type", some 't', true, ValueType.names.map (·.1), some "string"⟩

/-- The key, the first parameter of nearly every command. -/
def keyParameter : PositionalSpec := ⟨"KEY", .one⟩

/-- A command with a key, more parameters and options of its own. -/
def keyCommand (name : String) (more : List PositionalSpec) (options : List OptionSpec) :
    CommandSpec :=
  ⟨name, keyParameter :: more, options ++ globalOptions, false⟩

/-- The way to read a value that the arguments ask for. -/
def typeOf (found : Matches) : ValueType :=
  ((found.value? "type").bind fun name =>
    (ValueType.names.find? fun entry => entry.1 == name).map (·.2)).getD .string

/-- The commands: what each takes, and which one its arguments make. -/
def commands : List (CommandSpec × (Matches → Command)) :=
  [ (keyCommand "get" [] [], fun m => .get (m.one "KEY")),
    (keyCommand "set" [⟨"VALUE", .one⟩] [typeOption], fun m =>
      .set (m.one "KEY") (m.one "VALUE") (typeOf m)),
    (keyCommand "del" [] [], fun m => .delete (m.one "KEY")),
    (keyCommand "exists" [] [], fun m => .contains (m.one "KEY")),
    (keyCommand "incr" [⟨"BY", .optional "1"⟩] [], fun m =>
      .increase (m.one "KEY") (m.one "BY")),
    (keyCommand "lpush" [⟨"VALUE", .many⟩] [typeOption], fun m =>
      .push (m.one "KEY") .left (m.all "VALUE") (typeOf m)),
    (keyCommand "rpush" [⟨"VALUE", .many⟩] [typeOption], fun m =>
      .push (m.one "KEY") .right (m.all "VALUE") (typeOf m)),
    (keyCommand "lpop" [] [], fun m => .pop (m.one "KEY") .left),
    (keyCommand "rpop" [] [], fun m => .pop (m.one "KEY") .right),
    ({ keyCommand "lrange" [⟨"START", .optional "0"⟩, ⟨"END", .optional "-1"⟩] [] with
        numbers := true },
      fun m => .range (m.one "KEY") (m.one "START") (m.one "END")),
    (keyCommand "llen" [] [], fun m => .length (m.one "KEY")),
    (keyCommand "hset" [⟨"FIELD", .one⟩, ⟨"VALUE", .one⟩] [typeOption], fun m =>
      .mapSet (m.one "KEY") (m.one "FIELD") (m.one "VALUE") (typeOf m)),
    (keyCommand "hget" [⟨"FIELD", .one⟩] [], fun m => .mapGet (m.one "KEY") (m.one "FIELD")),
    (keyCommand "hdel" [⟨"FIELD", .one⟩] [], fun m =>
      .mapRemove (m.one "KEY") (m.one "FIELD")),
    (keyCommand "hkeys" [] [], fun m => .mapFields (m.one "KEY")),
    (keyCommand "sadd" [⟨"MEMBER", .many⟩] [], fun m =>
      .setAdd (m.one "KEY") (m.all "MEMBER")),
    (keyCommand "srem" [⟨"MEMBER", .one⟩] [], fun m =>
      .setRemove (m.one "KEY") (m.one "MEMBER")),
    (keyCommand "sismember" [⟨"MEMBER", .one⟩] [], fun m =>
      .setContains (m.one "KEY") (m.one "MEMBER")),
    (keyCommand "scard" [] [], fun m => .setSize (m.one "KEY")),
    (keyCommand "bfadd" [⟨"ITEM", .one⟩] [textOption "slots"], fun m =>
      .bloomAdd (m.one "KEY") (m.one "ITEM") (m.value? "slots")),
    (keyCommand "bfexists" [⟨"ITEM", .one⟩] [], fun m =>
      .bloomContains (m.one "KEY") (m.one "ITEM")),
    (keyCommand "tsadd" [⟨"TIME", .one⟩, ⟨"VALUE", .one⟩] [typeOption], fun m =>
      .seriesAdd (m.one "KEY") (m.one "TIME") (m.one "VALUE") (typeOf m)),
    (keyCommand "tsrange" [⟨"FROM", .one⟩, ⟨"TO", .one⟩] [], fun m =>
      .seriesRange (m.one "KEY") (m.one "FROM") (m.one "TO")),
    (keyCommand "expire" [⟨"SECONDS", .one⟩] [], fun m =>
      .expire (m.one "KEY") (m.one "SECONDS")),
    (keyCommand "persist" [] [], fun m => .persist (m.one "KEY")),
    (keyCommand "ttl" [] [], fun m => .expiry (m.one "KEY")),
    (⟨"sweep", [], ⟨"watch", none, false, [], none⟩ :: globalOptions, false⟩, fun m =>
      .sweep (m.given "watch")),
    (keyCommand "repair" [] [], fun m => .repair (m.one "KEY")) ]

/-! ## Whole command lines -/

/-- A command together with where the store is to be found. -/
structure Invocation where
  /-- The configuration file. -/
  config : Option String
  /-- The directory of the database. -/
  path : Option String
  command : Command
deriving DecidableEq, Repr

namespace Invocation

/-- The value of an option given in front of the command or behind it; the one
behind it wins. -/
def inherited (outer : List (String × Option String)) (inner : Matches) (name : String) :
    Option String :=
  if inner.given name then inner.value? name
  else (outer.find? fun option => option.1 == name).bind (·.2)

/-- The invocation that the arguments of the program make. -/
def ofArguments? (args : List String) : Option Invocation := do
  let names := commands.map fun command => command.1.name
  let (taken, rest) ← takeArguments globalOptions false names none .none args
  guard taken.positionals.isEmpty
  match rest with
  | [] => none
  | name :: rest =>
      let (spec, make) ← commands.find? fun command => command.1.name == name
      let found ← matchArguments spec rest
      return ⟨inherited taken.options found "config", inherited taken.options found "path",
        make found⟩

end Invocation
end StructuredStore.CommandLine

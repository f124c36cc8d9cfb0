import StructuredStore.CommandLine.Command
import StructuredStore.Operation

/-!
# Running commands

A command reads its arguments as it goes, works on the store and answers the
text to be shown.  A structure is created before the values for it are read.

Main definitions:

- `Command.run`: what a command does and shows.
-/

namespace StructuredStore.CommandLine

/-! ## Failures -/

/-- Why a command fails. -/
inductive Failure where
  | store (e : StoreError)
  | number (fault : Numeral.Fault)
  | float (fault : Binary64.LiteralFault)
  | decimal (fault : DataError)
  | notBool
  | time (fault : Rfc3339.Fault)
  | secondsOutOfRange (seconds : Int64)
  /-- A value cannot be shown; the run breaks off behind what has been shown. -/
  | unshowable (shown : String)
deriving DecidableEq, Repr

/-- The wording of a failure. -/
def Failure.message : Failure → String
  | .store e => e.message
  | .number fault => fault.message
  | .float fault => fault.message
  | .decimal fault => fault.message
  | .notBool => "provided string was not `true` or `false`"
  | .time fault => fault.message
  | .secondsOutOfRange seconds =>
      "SECONDS out of range: " ++ Numeral.ofInt seconds.toInt
  | .unshowable _ => "Formatting argument out of range"

/-- A computation of a command. -/
abbrev CommandM (α : Type) := ExceptT Failure (StateM Engine) α

/-- An operation of the store as a step of a command. -/
def work {α : Type} (action : StoreM α) : CommandM α :=
  ExceptT.mk fun engine =>
    match action.run engine with
    | (.ok a, engine) => (.ok a, engine)
    | (.error e, engine) => (.error (.store e), engine)

/-- A pure step, with its fault as the command's failure. -/
def reading {ε α : Type} (failure : ε → Failure) : Except ε α → CommandM α
  | .ok a => pure a
  | .error fault => throw (failure fault)

/-! ## Arguments -/

/-- The number that an argument stands for. -/
def readNumber (text : String) : CommandM Int64 :=
  reading .number (Numeral.readInt64 text)

/-- The instant that an argument stands for. -/
def readTime (text : String) : CommandM Instant :=
  reading .time (Rfc3339.ofText text)

/-- The value that an argument stands for. -/
def readValue (text : String) : ValueType → CommandM Value
  | .string => pure (.text text)
  | .int => .int <$> readNumber text
  | .float => .float <$> reading .float (Binary64.ofLiteral text)
  | .decimal => .decimal <$> reading .decimal (Decimal.ofText text)
  | .bool =>
      if text = "true" then pure (.bool true)
      else if text = "false" then pure (.bool false)
      else throw .notBool

/-! ## Steps -/

/-- Text with an end of line. -/
def line (text : String) : String := text ++ "\n"

/-- Shows values one after the other, each behind a text of its own, on top of what
has been shown. -/
def showValues : String → List (String × Value) → CommandM String
  | shown, [] => pure shown
  | shown, (label, value) :: entries =>
      match value.toText? with
      | some text => showValues (shown ++ label ++ line text) entries
      | none => throw (.unshowable (shown ++ label))

/-- Shows one value. -/
def showValue (value : Value) : CommandM String :=
  showValues "" [("", value)]

/-- A truth value as it is shown. -/
def showFlag (b : Bool) : String := if b then "true" else "false"

/-- Creates a structure unless the key holds something. -/
def ensure (create : StoreM Unit) : CommandM Unit := do
  match ← work (Expiry.attempt create) with
  | .ok () => return ()
  | .error .alreadyExists => return ()
  | .error e => throw (.store e)

/-- Pushes written values one after the other and answers the last length. -/
def pushAll (key : String) (side : Deque.End) (type : ValueType) :
    Int64 → List String → CommandM Int64
  | length, [] => pure length
  | _, text :: texts => do
      let value ← readValue text type
      let length ← work (Deque.push key value side)
      pushAll key side type length texts

/-- Adds members one after the other and answers the last number of members. -/
def addAll (key : String) : UInt64 → List String → CommandM UInt64
  | count, [] => pure count
  | _, member :: members => do
      let count ← work (MemberSet.add key member)
      addAll key count members

/-- The most seconds in which a key may be made to expire. -/
def maxSeconds : Nat := 9223372036854775

/-! ## Commands -/

/-- Runs a command and answers the text to be shown.  `salt` is for a
membership filter that the command may create. -/
def Command.run (env : Environment) (salt : String) : Command → CommandM String
  | .get key => do showValue (← work (Store.get key))
  | .set key value type => do
      let value ← readValue value type
      work (Store.set key value)
      return ""
  | .delete key => do
      work (Store.delete key)
      return ""
  | .contains key => do return line (showFlag (← work (Store.contains key)))
  | .increase key amount => do
      let amount ← readNumber amount
      return line (Numeral.ofInt (← work (Store.increase key amount)).toInt)
  | .push key side values type => do
      ensure (Deque.create key)
      let length ← pushAll key side type 0 values
      return line (Numeral.ofInt length.toInt)
  | .pop key side => do showValue (← work (Deque.pop key side))
  | .range key start stop => do
      let start ← readNumber start
      let stop ← readNumber stop
      let values ← work (Deque.range key start stop)
      showValues "" (values.map fun value => ("", value))
  | .length key => do return line (Numeral.ofInt (← work (Deque.length key)).toInt)
  | .mapSet key field value type => do
      ensure (FieldMap.create key)
      let value ← readValue value type
      return line (Numeral.ofNat (← work (FieldMap.set key field value)).toNat)
  | .mapGet key field => do showValue (← work (FieldMap.get key field))
  | .mapRemove key field => do
      return line (Numeral.ofNat (← work (FieldMap.remove key field)).toNat)
  | .mapFields key => do
      return String.join ((← work (FieldMap.fields key)).map line)
  | .setAdd key members => do
      ensure (MemberSet.create key)
      return line (Numeral.ofNat (← addAll key 0 members).toNat)
  | .setRemove key member => do
      return line (Numeral.ofNat (← work (MemberSet.remove key member)).toNat)
  | .setContains key member => do
      return line (showFlag (← work (MemberSet.contains key member)))
  | .setSize key => do return line (Numeral.ofNat (← work (MemberSet.size key)).toNat)
  | .bloomAdd key item slots => do
      let slots ← slots.mapM fun text => reading .number (Numeral.readUInt8 text)
      ensure (Membership.create key slots salt)
      return line (Numeral.ofNat (← work (Membership.add key item)).toNat)
  | .bloomContains key item => do
      return line (showFlag (← work (Membership.contains key item)))
  | .seriesAdd key time value type => do
      ensure (Series.create key)
      let instant ← readTime time
      let value ← readValue value type
      return line (Numeral.ofNat (← work (Series.add key instant value)).toNat)
  | .seriesRange key start stop => do
      let start ← readTime start
      let stop ← readTime stop
      let points ← work (Series.range key start stop)
      showValues "" (points.map fun (instant, value) =>
        (Rfc3339.toText instant ++ "\t", value))
  | .expire key seconds => do
      let seconds ← readNumber seconds
      if maxSeconds < seconds.toInt.natAbs then throw (.secondsOutOfRange seconds)
      let span : Span := ⟨seconds.toInt * 1000000000⟩
      return line (showFlag (← work (Expiry.setIn env.width env.now key span)))
  | .persist key => do
      work (Expiry.clear key)
      return ""
  | .expiry key => do
      match ← work (Expiry.get key) with
      | some instant => return line (Rfc3339.toText instant)
      | none => return line "none"
  | .sweep _ => do
      let report ← work (Expiry.sweep env.width env.now)
      return line ("deleted " ++ Numeral.ofNat report.deleted)
  | .repair key => do
      let report ← work (Repair.repair key)
      return line (report.kind.name ++ " " ++ Numeral.ofNat report.before ++ " -> " ++
        Numeral.ofNat report.after)

end StructuredStore.CommandLine

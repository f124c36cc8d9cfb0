import StructuredStore.Clock
import StructuredStore.Expiry
import StructuredStore.Repair
import StructuredStore.Secret
import StructuredStore.Store.Bitmap
import StructuredStore.Store.FieldMap
import StructuredStore.Store.MemberSet
import StructuredStore.Store.Membership
import StructuredStore.Store.Series

/-!
# Operations

The operations of the store as data, so that whole runs of them can be spoken
about, and what they answer.

Main definitions:

- `Operation`, `Reply`: what is asked and what is answered.
- `Operation.perform`: what an operation does to the rows.
- `Session.run`: a sequence of operations; a failing one does not end it.
-/

namespace StructuredStore

/-! ## Requests and answers -/

/-- An operation of the store.  The salt of a new membership filter is drawn by
whoever asks for it. -/
inductive Operation where
  | set (key : String) (value : Value)
  | get (key : String)
  | getAs (key : String) (kind : Kind)
  | kindOf (key : String)
  | contains (key : String)
  | delete (key : String)
  | increase (key : String) (amount : Int64)
  | increaseFloat (key : String) (amount : Binary64)
  | increaseDecimal (key : String) (amount : Decimal)
  | setBit (key : String) (offset : UInt64) (on : Bool)
  | getBit (key : String) (offset : UInt64)
  | bitCount (key : String)
  | flush
  | expireAt (key : String) (instant : Instant)
  | expireIn (key : String) (span : Span)
  | clearExpiry (key : String)
  | getExpiry (key : String)
  | sweep (now : Instant)
  | sweepNow
  | repair (key : String)
  | listCreate (key : String)
  | listPush (key : String) (side : Deque.End) (value : Value)
  | listPop (key : String) (side : Deque.End)
  | listGet (key : String) (position : Int64)
  | listRange (key : String) (start stop : Int64)
  | listSet (key : String) (position : Int64) (value : Value)
  | listTrim (key : String) (start stop : Int64)
  | listLength (key : String)
  | listDelete (key : String)
  | mapCreate (key : String)
  | mapSet (key field : String) (value : Value)
  | mapGet (key field : String)
  | mapContains (key field : String)
  | mapRemove (key field : String)
  | mapSize (key : String)
  | mapEntries (key : String)
  | mapFields (key : String)
  | mapValues (key : String)
  | mapDelete (key : String)
  | setCreate (key : String)
  | setAdd (key member : String)
  | setRemove (key member : String)
  | setContains (key member : String)
  | setSize (key : String)
  | setMembers (key : String)
  | setDelete (key : String)
  | bloomCreate (key : String) (slots : Option UInt8) (salt : String)
  | bloomAdd (key item : String)
  | bloomContains (key item : String)
  | bloomSize (key : String)
  | bloomClear (key : String)
  | bloomDelete (key : String)
  | seriesCreate (key : String)
  | seriesAdd (key : String) (instant : Instant) (value : Value)
  | seriesGet (key : String) (instant : Instant)
  | seriesRemove (key : String) (instant : Instant)
  | seriesRange (key : String) (start stop : Instant)
  | seriesLatest (key : String)
  | seriesSize (key : String)
  | seriesDelete (key : String)
  | setEncrypted (key : String) (value : Value) (algorithm : String) (secret : Bytes)
  | getDecrypted (key : String) (secret : Bytes)
  | setPassword (key password algorithm : String) (cost : HashCost)
  | verifyPassword (key password : String)

/-- What an operation answers. -/
inductive Reply where
  | done
  | flag (b : Bool)
  | kind (k : Kind)
  | value (v : Value)
  | integer (i : Int64)
  | count (n : UInt64)
  | float (x : Binary64)
  | decimal (d : Decimal)
  | instant (t : Option Instant)
  | values (vs : List Value)
  | names (ns : List String)
  | entries (es : List (String × Value))
  | points (ps : List (Instant × Value))
  | point (p : Option (Instant × Value))
  | sweep (report : Expiry.SweepReport)
  | repair (report : Repair.Report)
deriving DecidableEq

/-! ## Performing operations -/

/-- What operations depend on beside the rows. -/
structure Environment where
  now : Instant
  width : BucketWidth
  providers : Providers

namespace Operation

/-- Performs an operation whose answer carries nothing. -/
def silent (action : StoreM Unit) : StoreM Reply := do
  action
  return .done

/-- What an operation does. -/
def perform (env : Environment) : Operation → StoreM Reply
  | .set key value => silent (Store.set key value)
  | .get key => .value <$> Store.get key
  | .getAs key kind => .value <$> Store.getAs key kind
  | .kindOf key => .kind <$> Store.kindOf key
  | .contains key => .flag <$> Store.contains key
  | .delete key => silent (Store.delete key)
  | .increase key amount => .integer <$> Store.increase key amount
  | .increaseFloat key amount => .float <$> Store.increaseFloat key amount
  | .increaseDecimal key amount => .decimal <$> Store.increaseDecimal key amount
  | .setBit key offset on => .flag <$> Bitmap.setBit key offset on
  | .getBit key offset => .flag <$> Bitmap.getBit key offset
  | .bitCount key => .count <$> Bitmap.bitCount key
  | .flush => silent Engine.flush
  | .expireAt key instant => .flag <$> Expiry.setAt env.width env.now key instant
  | .expireIn key span => .flag <$> Expiry.setIn env.width env.now key span
  | .clearExpiry key => silent (Expiry.clear key)
  | .getExpiry key => .instant <$> Expiry.get key
  | .sweep now => .sweep <$> Expiry.sweep env.width now
  | .sweepNow => .sweep <$> Expiry.sweep env.width env.now
  | .repair key => .repair <$> Repair.repair key
  | .listCreate key => silent (Deque.create key)
  | .listPush key side value => .integer <$> Deque.push key value side
  | .listPop key side => .value <$> Deque.pop key side
  | .listGet key position => .value <$> Deque.get key position
  | .listRange key start stop => .values <$> Deque.range key start stop
  | .listSet key position value => silent (Deque.set key position value)
  | .listTrim key start stop => silent (Deque.trim key start stop)
  | .listLength key => .integer <$> Deque.length key
  | .listDelete key => silent (Deque.delete key)
  | .mapCreate key => silent (FieldMap.create key)
  | .mapSet key field value => .count <$> FieldMap.set key field value
  | .mapGet key field => .value <$> FieldMap.get key field
  | .mapContains key field => .flag <$> FieldMap.contains key field
  | .mapRemove key field => .count <$> FieldMap.remove key field
  | .mapSize key => .count <$> FieldMap.size key
  | .mapEntries key => .entries <$> FieldMap.entries key
  | .mapFields key => .names <$> FieldMap.fields key
  | .mapValues key => .values <$> FieldMap.values key
  | .mapDelete key => silent (FieldMap.delete key)
  | .setCreate key => silent (MemberSet.create key)
  | .setAdd key member => .count <$> MemberSet.add key member
  | .setRemove key member => .count <$> MemberSet.remove key member
  | .setContains key member => .flag <$> MemberSet.contains key member
  | .setSize key => .count <$> MemberSet.size key
  | .setMembers key => .names <$> MemberSet.members key
  | .setDelete key => silent (MemberSet.delete key)
  | .bloomCreate key slots salt => silent (Membership.create key slots salt)
  | .bloomAdd key item => .count <$> Membership.add key item
  | .bloomContains key item => .flag <$> Membership.contains key item
  | .bloomSize key => .count <$> Membership.size key
  | .bloomClear key => silent (Membership.clear key)
  | .bloomDelete key => silent (Membership.delete key)
  | .seriesCreate key => silent (Series.create key)
  | .seriesAdd key instant value => .count <$> Series.add key instant value
  | .seriesGet key instant => .value <$> Series.get key instant
  | .seriesRemove key instant => .count <$> Series.remove key instant
  | .seriesRange key start stop => .points <$> Series.range key start stop
  | .seriesLatest key => .point <$> Series.latest key
  | .seriesSize key => .count <$> Series.size key
  | .seriesDelete key => silent (Series.delete key)
  | .setEncrypted key value algorithm secret =>
      silent (Secret.setEncrypted env.providers key value algorithm secret)
  | .getDecrypted key secret => .value <$> Secret.getDecrypted env.providers key secret
  | .setPassword key password algorithm cost =>
      silent (Secret.setPassword env.providers key password algorithm cost)
  | .verifyPassword key password =>
      .flag <$> Secret.verifyPassword env.providers key password

end Operation

/-! ## Sessions -/

/-- A store together with its clock. -/
structure Session where
  engine : Engine
  clock : Clock
  width : BucketWidth
  providers : Providers

/-- A step of a session: an operation, or a move of the clock. -/
inductive Session.Step where
  | operation (op : Operation)
  | clockSet (instant : Instant)
  | clockAdvance (span : Span)

namespace Session

/-- What operations depend on beside the rows. -/
def environment (session : Session) : Environment :=
  ⟨session.clock.now, session.width, session.providers⟩

/-- The outcome of an operation and the session after it. -/
def perform (session : Session) (op : Operation) : Except StoreError Reply × Session :=
  let (outcome, engine) := (op.perform session.environment).run session.engine
  (outcome, { session with engine })

/-- The outcome of a step and the session after it. -/
def step (session : Session) : Step → Except StoreError Reply × Session
  | .operation op => session.perform op
  | .clockSet instant => (.ok .done, { session with clock := .starting instant })
  | .clockAdvance span => (.ok .done, { session with clock := session.clock.advance span })

/-- The outcomes of a sequence of steps and the session after them. -/
def run (session : Session) : List Step → List (Except StoreError Reply) × Session
  | [] => ([], session)
  | first :: rest =>
      let (outcome, session) := session.step first
      let (outcomes, session) := session.run rest
      (outcome :: outcomes, session)

end Session
end StructuredStore

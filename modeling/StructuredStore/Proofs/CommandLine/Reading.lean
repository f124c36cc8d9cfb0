import StructuredStore.CommandLine.Run
import StructuredStore.Proofs.Expiry.Attempts
import StructuredStore.Proofs.Store.Endurance

/-!
# Arguments that cannot be read

A command whose arguments are read in front of its work leaves the rows alone if
one of them cannot be read.  Three kinds of commands begin before: a list, a map
or a series is created in front of the values for it, and of several values each
is pushed before the next one is read.

Main definitions:

- `ReadsNothing`: steps that do not fail because of an argument.
- `Opens`: what a step has done when an argument cannot be read.
- `Command.opening`: the part of a command in front of that argument.

Main results:

- `Opens.bind`, `Opens.behind`, `Opens.before`: the parts of a sequence.
- `Command.opens_run`: a command with an argument that cannot be read is its
  opening.
- `Command.table_eq_iff_of_run_opening`: which openings change the rows.
- `Command.run_unread_iff`: what is left by a command with such an argument.
-/

namespace StructuredStore.CommandLine

open Engine

variable {α β : Type}

/-! ## Steps of commands -/

/-- An operation of the store does as a step what it does by itself. -/
theorem run_work (action : StoreM α) (engine : Engine) :
    (work action).run engine = ((action.run engine).1.mapError .store, (action.run engine).2) := by
  simp only [work, ExceptT.run, ExceptT.mk]
  rcases action engine with ⟨_ | _, left⟩ <;> rfl

/-- An engine command that succeeds at the command line succeeds alike on the engine.
-/
theorem run_of_run_work_ok {action : StoreM α} {engine after : Engine} {a : α}
    (h : (work action).run engine = (.ok a, after)) : action.run engine = (.ok a, after) := by
  rw [run_work] at h
  rcases hrun : action.run engine with ⟨e | b, left⟩
  · rw [hrun] at h
    cases h
  · rw [hrun] at h
    cases h
    rfl

/-- A structure that is there already needs no creation. -/
theorem run_ensure (create : StoreM Unit) (engine : Engine) :
    (ensure create).run engine =
      match create.run engine with
      | (.ok (), left) => (.ok (), left)
      | (.error .alreadyExists, left) => (.ok (), left)
      | (.error e, left) => (.error (.store e), left) := by
  have hwork := run_work (Expiry.attempt create) engine
  obtain ⟨cause, left, hbroken, hattempt⟩ | hattempt := Expiry.run_attempt create engine
  · rw [hattempt] at hwork
    rw [ensure, run_bind_error hwork, hbroken]
  · rw [hattempt] at hwork
    rw [ensure, run_bind_ok hwork]
    rcases create.run engine with ⟨e | ⟨⟩, left⟩
    · cases e <;> rfl
    · rfl

/-! ## Failures to read -/

/-- Whether a failure says that an argument could not be read. -/
def Failure.isUnread : Failure → Bool
  | .number _ | .float _ | .decimal _ | .notBool | .time _ | .secondsOutOfRange _ => true
  | .store _ | .unshowable _ => false

/-- Whether a step does not fail because of an argument. -/
def ReadsNothing (action : CommandM α) : Prop :=
  ∀ engine failure after, action.run engine = (.error failure, after) → failure.isUnread = false

namespace ReadsNothing

protected theorem pure (a : α) : ReadsNothing (pure a : CommandM α) := by
  intro engine failure after h
  cases h

/-- Work on the engine parses no argument. -/
theorem work (action : StoreM α) : ReadsNothing (work action) := by
  intro engine failure after h
  rw [run_work] at h
  rcases hrun : action.run engine with ⟨e | a, left⟩
  · rw [hrun] at h
    cases h
    rfl
  · rw [hrun] at h
    cases h

/-- Commands that parse nothing compose to one that parses nothing. -/
protected theorem bind {first : CommandM α} {next : α → CommandM β} (hfirst : ReadsNothing first)
    (hnext : ∀ a, ReadsNothing (next a)) : ReadsNothing (first >>= next) := by
  intro engine failure after h
  obtain h | ⟨a, left, _, h⟩ := cases_of_run_bind_error h
  · exact hfirst engine failure after h
  · exact hnext a left failure after h

/-- Creating what is missing parses nothing. -/
theorem ensure (create : StoreM Unit) : ReadsNothing (ensure create) := by
  refine .bind (work _) fun outcome => ?_
  rcases outcome with e | ⟨⟩
  · intro engine failure after h
    cases e <;> cases h <;> rfl
  · exact .pure ()

theorem showValues (shown : String) (entries : List (String × Value)) :
    ReadsNothing (showValues shown entries) := by
  induction entries generalizing shown with
  | nil => exact .pure shown
  | cons entry entries ih =>
      rw [CommandLine.showValues]
      cases entry.2.toText? with
      | none =>
          intro engine failure after h
          cases h
          rfl
      | some text => exact ih _

theorem addAll (key : String) (count : UInt64) (members : List String) :
    ReadsNothing (addAll key count members) := by
  induction members generalizing count with
  | nil => exact .pure count
  | cons member members ih => exact .bind (work _) ih

end ReadsNothing

/-! ## What lies in front of an argument -/

/-- Whether a step that fails because of an argument has done just the opening. -/
def Opens (action : CommandM α) (opening : CommandM Unit) : Prop :=
  ∀ engine failure after, action.run engine = (.error failure, after) → failure.isUnread = true →
    opening.run engine = (.ok (), after)

/-- What does not fail because of an argument may be given any opening. -/
theorem ReadsNothing.opens {action : CommandM α} (h : ReadsNothing action)
    (opening : CommandM Unit) : Opens action opening := by
  intro engine failure after hrun hunread
  rw [h engine failure after hrun] at hunread
  cases hunread

/-- Whether a step leaves everything as it is. -/
def Still (action : CommandM α) : Prop :=
  ∀ engine, (action.run engine).2 = engine

namespace Still

protected theorem map {action : CommandM α} (f : α → β) (h : Still action) :
    Still (f <$> action) := by
  intro engine
  rw [run_map]
  exact h engine

/-- Parsing an argument leaves the engine as it is. -/
theorem reading {ε : Type} (failure : ε → Failure) (result : Except ε α) :
    Still (reading failure result) := by
  cases result <;> exact fun _ => rfl

/-- A command that leaves the engine alone opens with nothing. -/
theorem opens {action : CommandM α} (h : Still action) : Opens action (pure ()) := by
  intro engine failure after hrun _
  have hleft := h engine
  rw [hrun] at hleft
  rw [← hleft]
  rfl

end Still

namespace Opens

/-- A sequence opens with its first step, if no argument makes that one fail. -/
protected theorem bind {first : CommandM α} {next : α → CommandM β} {opening : α → CommandM Unit}
    (hfirst : ReadsNothing first) (hnext : ∀ a, Opens (next a) (opening a)) :
    Opens (first >>= next) (first >>= opening) := by
  intro engine failure after h hunread
  obtain h | ⟨a, left, hrun, h⟩ := cases_of_run_bind_error h
  · rw [hfirst engine failure after h] at hunread
    cases hunread
  · rw [run_bind_ok hrun]
    exact hnext a left failure after h hunread

/-- A sequence that goes on with reading opens with all of its first step. -/
theorem behind {first : CommandM Unit} {next : Unit → CommandM β} (hfirst : ReadsNothing first)
    (hnext : ∀ a, Opens (next a) (pure ())) : Opens (first >>= next) first := by
  have h := Opens.bind hfirst hnext
  rwa [bind_pure_unit] at h

/-- A sequence that no argument makes fail behind its first step opens as that one. -/
theorem before {first : CommandM α} {next : α → CommandM β} {opening : CommandM Unit}
    (hfirst : Opens first opening) (hnext : ∀ a, ReadsNothing (next a)) :
    Opens (first >>= next) opening := by
  intro engine failure after h hunread
  obtain h | ⟨a, left, _, h⟩ := cases_of_run_bind_error h
  · exact hfirst engine failure after h hunread
  · rw [hnext a left failure after h] at hunread
    cases hunread

/-- Arguments that are read first open with nothing. -/
theorem still {first : CommandM α} {next : α → CommandM β} (hfirst : Still first)
    (hnext : ∀ a, Opens (next a) (pure ())) : Opens (first >>= next) (pure ()) := by
  intro engine failure after h hunread
  obtain h | ⟨a, left, hrun, h⟩ := cases_of_run_bind_error h
  · exact hfirst.opens engine failure after h hunread
  · have hleft : left = engine := by simpa only [hrun] using hfirst engine
    rw [hleft] at h
    exact hnext a engine failure after h hunread

/-- An operation whose answer is shown has no argument left to read. -/
theorem answers (action : StoreM α) (text : α → String) (opening : CommandM Unit) :
    Opens (do return text (← work action)) opening :=
  (ReadsNothing.bind (.work action) fun _ => .pure _).opens opening

theorem values (action : StoreM α) (entries : α → List (String × Value)) (shown : String)
    (opening : CommandM Unit) :
    Opens (do showValues shown (entries (← work action))) opening :=
  (ReadsNothing.bind (.work action) fun _ => .showValues shown _).opens opening

end Opens

/-! ## Values one after the other -/

/-- Whether a text is a value of the type. -/
def ValueType.reads (type : ValueType) (text : String) : Bool :=
  match type with
  | .string => true
  | .int => (Numeral.readInt64 text).isOk
  | .float => (Binary64.ofLiteral text).isOk
  | .decimal => (Decimal.ofText text).isOk
  | .bool => text = "true" || text = "false"

/-- A translated parse answers the same on every engine and succeeds exactly when the
parse does. -/
theorem exists_run_map_reading {ε : Type} (f : α → β) (failure : ε → Failure)
    (result : Except ε α) :
    ∃ outcome, (∀ engine, (f <$> reading failure result).run engine = (outcome, engine)) ∧
      outcome.isOk = result.isOk := by
  cases result with
  | error fault => exact ⟨.error (failure fault), fun _ => rfl, rfl⟩
  | ok a => exact ⟨.ok (f a), fun _ => rfl, rfl⟩

/-- Reading a value changes nothing, and succeeds if the text is a value of the
type. -/
theorem exists_run_readValue (text : String) (type : ValueType) :
    ∃ outcome, (∀ engine, (readValue text type).run engine = (outcome, engine)) ∧
      outcome.isOk = type.reads text := by
  cases type with
  | string => exact ⟨.ok (.text text), fun _ => rfl, rfl⟩
  | int => exact exists_run_map_reading _ _ _
  | float => exact exists_run_map_reading _ _ _
  | decimal => exact exists_run_map_reading _ _ _
  | bool =>
      by_cases htrue : text = "true"
      · exact ⟨.ok (.bool true), fun _ => by rw [readValue, if_pos htrue]; rfl,
          by simp [ValueType.reads, htrue, Except.isOk, Except.toBool]⟩
      · by_cases hfalse : text = "false"
        · exact ⟨.ok (.bool false), fun _ => by rw [readValue, if_neg htrue, if_pos hfalse]; rfl,
            by simp [ValueType.reads, hfalse, Except.isOk, Except.toBool]⟩
        · exact ⟨.error .notBool, fun _ => by rw [readValue, if_neg htrue, if_neg hfalse]; rfl,
            by simp [ValueType.reads, htrue, hfalse, Except.isOk, Except.toBool]⟩

/-- Reading a typed value leaves the engine as it is. -/
theorem Still.readValue (text : String) (type : ValueType) : Still (readValue text type) := by
  obtain ⟨outcome, hrun, _⟩ := exists_run_readValue text type
  intro engine
  rw [hrun engine]

/-- Pushing values opens with the pushes of those in front of the first one that
cannot be read. -/
theorem opens_pushAll (key : String) (side : Deque.End) (type : ValueType) (length : Int64)
    (texts : List String) :
    Opens (pushAll key side type length texts) (do
      let _ ← pushAll key side type length (texts.takeWhile type.reads)) := by
  induction texts generalizing length with
  | nil => exact (ReadsNothing.pure length).opens _
  | cons text texts ih =>
      obtain ⟨outcome, hrun, hreads⟩ := exists_run_readValue text type
      cases outcome with
      | error fault =>
          -- The pushes end here, and so do those of the texts in front.
          rw [List.takeWhile_cons_of_neg (by rw [← hreads]; exact Bool.false_ne_true)]
          intro engine failure after h _
          rw [pushAll, run_bind, hrun engine] at h
          cases h
          rfl
      | ok value =>
          rw [List.takeWhile_cons_of_pos hreads.symm, pushAll, pushAll, bind_assoc]
          have hread : ReadsNothing (readValue text type) := by
            intro engine failure after h
            rw [hrun engine] at h
            cases h
          refine .bind hread fun value => ?_
          rw [bind_assoc]
          exact .bind (.work _) fun length => ih length

/-! ## Commands -/

/-- What a command does before it reads the first argument that it cannot read. -/
def Command.opening : Command → CommandM Unit
  | .push key side values type => do
      ensure (Deque.create key)
      let _ ← pushAll key side type 0 (values.takeWhile type.reads)
  | .mapSet key _ _ _ => ensure (FieldMap.create key)
  | .seriesAdd key _ _ _ => ensure (Series.create key)
  | _ => return ()

/-- A command that fails because of an argument has done its opening. -/
theorem Command.opens_run (env : Environment) (salt : String) (command : Command) :
    Opens (command.run env salt) command.opening := by
  cases command with
  | delete key | contains key | length key | mapRemove key field | mapFields key
  | setRemove key member | setContains key member | setSize key | bloomContains key item
  | persist key | sweep watch | repair key => exact .answers _ _ _
  | get key | pop key side | mapGet key field => exact .values _ _ _ _
  | expiry key =>
      refine (ReadsNothing.bind (.work _) fun found => ?_).opens _
      cases found with
      | none => exact .pure _
      | some instant => exact .pure _
  | setAdd key members =>
      refine (ReadsNothing.bind (.ensure _) fun _ => ?_).opens _
      exact .bind (.addAll key 0 members) fun _ => .pure _
  | set key value type => exact .still (.readValue value type) fun _ => .answers _ _ _
  | increase key amount => exact .still (.reading _ _) fun _ => .answers _ _ _
  | range key start stop =>
      exact .still (.reading _ _) fun _ => .still (.reading _ _) fun _ => .values _ _ _ _
  | seriesRange key start stop =>
      exact .still (.reading _ _) fun _ => .still (.reading _ _) fun _ => .values _ _ _ _
  | expire key seconds =>
      refine .still (.reading _ _) fun seconds => ?_
      -- Too many seconds are refused in front of the work, like a text that is no number.
      split
      · exact .still (fun _ => rfl) fun _ => .answers _ _ _
      · exact .answers _ _ _
  | bloomAdd key item slots =>
      have hslots : Still (slots.mapM fun text => reading .number (Numeral.readUInt8 text)) := by
        cases slots with
        | none => exact fun _ => rfl
        | some text => exact (Still.reading _ _).map _
      refine .still hslots fun slots => ReadsNothing.opens ?_ _
      exact .bind (.ensure _) fun _ => .bind (.work _) fun _ => .pure _
  | mapSet key field value type =>
      refine .behind (.ensure _) fun _ => ?_
      exact .still (.readValue value type) fun _ => .answers _ _ _
  | seriesAdd key time value type =>
      refine .behind (.ensure _) fun _ => .still (.reading _ _) fun _ => ?_
      exact .still (.readValue value type) fun _ => .answers _ _ _
  | push key side values type =>
      refine .bind (.ensure _) fun _ => ?_
      exact (opens_pushAll key side type 0 values).before fun _ => .pure _

/-! ## What openings change -/

/-- Pushes that succeed count as many more as there are values. -/
theorem pushAll_counts {key : String} {side : Deque.End} {type : ValueType} {texts : List String}
    {length last : Int64} {engine after : Engine}
    (h : (pushAll key side type length texts).run engine = (.ok last, after)) :
    texts = [] ∧ after = engine ∨ ∃ handle longer expireAt,
      engine.table.HasFrame (Key.ofText key) ⟨.list handle, expireAt⟩ ∧
      after.table.HasFrame (Key.ofText key) ⟨.list longer, expireAt⟩ ∧
      longer.length.toInt = handle.length.toInt + texts.length := by
  induction texts generalizing length engine with
  | nil =>
      cases h
      exact Or.inl ⟨rfl, rfl⟩
  | cons text texts ih =>
      obtain ⟨value, between, hread, h⟩ := exists_of_run_bind_ok h
      obtain ⟨next, left, hpush, h⟩ := exists_of_run_bind_ok h
      have hbetween : between = engine := by
        simpa only [hread] using Still.readValue text type engine
      rw [hbetween] at hpush
      obtain ⟨handle, expireAt, hframe, hroom, hgrown⟩ :=
        (Deque.endures_push_counts engine.table key value side).of_run (run_of_run_work_ok hpush) next
          rfl
      have hlength := Deque.length_grown hroom
      refine Or.inr ⟨handle, ?_⟩
      obtain ⟨rfl, rfl⟩ | ⟨_, longer, _, hfound, hlast, hcount⟩ := ih h
      · exact ⟨_, expireAt, hframe, hgrown, by simpa using hlength⟩
      · cases hgrown.unique hfound
        refine ⟨longer, expireAt, hframe, hlast, ?_⟩
        rw [hcount, hlength, List.length_cons]
        omega

/-- Pushes of some values are seen in the metadata. -/
theorem table_ne_of_pushAll {key : String} {side : Deque.End} {type : ValueType}
    {texts : List String} {length last : Int64} {engine after : Engine}
    (h : (pushAll key side type length texts).run engine = (.ok last, after)) (htexts : texts ≠ []) :
    after.table ≠ engine.table := by
  intro heq
  obtain ⟨hnil, _⟩ | ⟨handle, longer, expireAt, hframe, hlast, hcount⟩ := pushAll_counts h
  · exact htexts hnil
  · rw [heq] at hlast
    cases hframe.unique hlast
    have hpos := List.length_pos_iff.mpr htexts
    omega

/-- Pushes do not take the metadata away. -/
theorem get?_ne_none_of_pushAll {key : String} {side : Deque.End} {type : ValueType}
    {texts : List String} {length last : Int64} {engine after : Engine}
    (h : (pushAll key side type length texts).run engine = (.ok last, after))
    (hthere : engine.table.get? (Key.ofText key) ≠ none) :
    after.table.get? (Key.ofText key) ≠ none := by
  obtain ⟨_, rfl⟩ | ⟨_, _, _, _, hlast, _⟩ := pushAll_counts h
  · exact hthere
  · exact hlast.get?_ne_none

/-- A structure that has to be there was there, or has been created. -/
theorem of_run_ensure_create {key : String} {metadata : Value} {engine after : Engine}
    (h : (ensure (Store.create key metadata)).run engine = (.ok (), after)) :
    engine.table.get? (Key.ofText key) ≠ none ∧ after.table = engine.table ∨
      engine.table.get? (Key.ofText key) = none ∧ after.table.get? (Key.ofText key) ≠ none := by
  rw [run_ensure] at h
  rcases hcreate : (Store.create key metadata).run engine with ⟨e | ⟨⟩, left⟩
  · rw [hcreate] at h
    cases e <;> cases h
    exact Or.inl (Store.of_run_create_alreadyExists hcreate)
  · rw [hcreate] at h
    cases h
    exact Or.inr ((Store.endures_create engine.table key metadata).of_run hcreate () rfl)

/-- Whether the opening of a command changes the rows: it creates a structure, or
there are values in front of the first one that cannot be read. -/
def Command.Begins (table : Table) : Command → Prop
  | .push key _ values type =>
      table.get? (Key.ofText key) = none ∨ values.takeWhile type.reads ≠ []
  | .mapSet key _ _ _ => table.get? (Key.ofText key) = none
  | .seriesAdd key _ _ _ => table.get? (Key.ofText key) = none
  | _ => False

/-- Creating what is missing changes the rows exactly when there was nothing at the
key. -/
theorem table_eq_iff_of_run_ensure {key : String} {metadata : Value} {engine after : Engine}
    (h : (ensure (Store.create key metadata)).run engine = (.ok (), after)) :
    after.table = engine.table ↔ ¬ engine.table.get? (Key.ofText key) = none := by
  obtain ⟨hthere, htable⟩ | ⟨habsent, hthere⟩ := of_run_ensure_create h
  · exact iff_of_true htable hthere
  · refine iff_of_false (fun heq => ?_) (not_not_intro habsent)
    rw [heq] at hthere
    exact hthere habsent

/-- An opening that is done has changed the rows exactly if the command begins. -/
theorem Command.table_eq_iff_of_run_opening {command : Command} {engine after : Engine}
    (h : command.opening.run engine = (.ok (), after)) :
    after.table = engine.table ↔ ¬ command.Begins engine.table := by
  cases command with
  | push key side values type =>
      obtain ⟨⟨⟩, left, hensure, h⟩ := exists_of_run_bind_ok h
      obtain ⟨last, right, hpush, h⟩ := exists_of_run_bind_ok h
      cases h
      obtain ⟨hthere, htable⟩ | ⟨habsent, hthere⟩ := of_run_ensure_create hensure
      · by_cases hvalues : values.takeWhile type.reads = []
        · rw [hvalues] at hpush
          cases hpush
          exact iff_of_true htable (not_or.mpr ⟨hthere, not_not_intro hvalues⟩)
        · have hchanged := table_ne_of_pushAll hpush hvalues
          rw [htable] at hchanged
          exact iff_of_false hchanged (not_not_intro (Or.inr hvalues))
      · refine iff_of_false (fun heq => ?_) (not_not_intro (Or.inl habsent))
        apply get?_ne_none_of_pushAll hpush hthere
        rw [heq]
        exact habsent
  | mapSet key field value type => exact table_eq_iff_of_run_ensure h
  | seriesAdd key time value type => exact table_eq_iff_of_run_ensure h
  | _ =>
      cases h
      exact iff_of_true rfl not_false

/-- A command that fails because of an argument has done its opening and nothing
else, whatever the engine holds and whichever calls fail.  All rows are as they
were unless it is a push onto an absent list or with values in front of the one
that cannot be read, or sets a field of an absent map or adds to an absent series. -/
theorem Command.run_unread_iff (env : Environment) (salt : String) (command : Command)
    {engine after : Engine} {failure : Failure}
    (h : (command.run env salt).run engine = (.error failure, after))
    (hunread : failure.isUnread = true) :
    command.opening.run engine = (.ok (), after) ∧
      (after.table = engine.table ↔ ¬ command.Begins engine.table) := by
  have hopening := command.opens_run env salt engine failure after h hunread
  exact ⟨hopening, table_eq_iff_of_run_opening hopening⟩

/-- A list is created and takes a number in front of a text that is none. -/
theorem Command.run_unread_iff_second :
    let env : Environment := ⟨.ofInt64 0, ⟨60, by decide, by decide⟩, .none⟩
    let command : Command := .push "l" .right ["1", "x"] .int
    let ran := (command.run env "").run (.ofTable .empty)
    ran.1 = .error (.number .invalidDigit) ∧
      command.opening.run (.ofTable .empty) = (.ok (), ran.2) ∧ ran.2.table ≠ .empty := by
  intro env command ran
  have hfails : ran.1 = .error (.number .invalidDigit) := by decide +kernel
  obtain ⟨hopening, hrows⟩ := run_unread_iff env "" command (Prod.ext hfails rfl) rfl
  exact ⟨hfails, hopening, fun heq => hrows.mp heq (Or.inl rfl)⟩

/-- A map is left by a command whose value is no number, and an item in a list by
one whose second value is none. -/
theorem Command.unread_leaves_rows :
    let env : Environment := ⟨.ofInt64 0, ⟨60, by decide, by decide⟩, .none⟩
    let set : Command := .mapSet "m" "f" "x" .int
    let push : Command := .push "l" .right ["1", "x"] .int
    let left := ((set.run env "").run (.ofTable .empty)).2.table
    let pushed := ((push.run env "").run (.ofTable .empty)).2.table
    Invocation.ofArguments? ["hset", "m", "f", "x", "-t", "int"] = some ⟨none, none, set⟩ ∧
      ((set.run env "").run (.ofTable .empty)).1 = .error (.number .invalidDigit) ∧
      left.HasFrame (Key.ofText "m") ⟨.map 0, none⟩ ∧
      Invocation.ofArguments? ["rpush", "l", "1", "x", "-t", "int"] = some ⟨none, none, push⟩ ∧
      ((push.run env "").run (.ofTable .empty)).1 = .error (.number .invalidDigit) ∧
      pushed.HasFrame (Key.listItem "l" 0) ⟨.int 1, none⟩ := by
  intro env set push left pushed
  exact ⟨by decide +kernel, by decide +kernel, by decide +kernel, by decide +kernel,
    by decide +kernel, by decide +kernel⟩

end StructuredStore.CommandLine

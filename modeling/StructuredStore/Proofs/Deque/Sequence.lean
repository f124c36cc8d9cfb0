import StructuredStore.Proofs.Deque.Removal
import StructuredStore.Proofs.Store.Footprint

/-!
# Lists are sequences open at both ends

A list, worked on by any run of operations, answers what a mathematical
sequence answers, and its rows lie where its metadata says.

Main results:

- `Call.answer`: what a sequence answers and becomes.
- `ends_call`: one operation on a list does what the sequence does.
- `run_calls_eq_sequence`: so does every run, from an empty store.
-/

namespace StructuredStore.Deque

open Engine Store
open Operation (ends_silent)

/-! ## Operations on one list -/

/-- An operation on a list. -/
inductive Call where
  | create
  | push (side : End) (value : Value)
  | pop (side : End)
  | get (position : Int64)
  | range (start stop : Int64)
  | set (position : Int64) (value : Value)
  | trim (start stop : Int64)
  | length
  | delete

namespace Call

/-- The operation of the store on the list at a key. -/
def operation (key : String) : Call → Operation
  | create => .listCreate key
  | push side value => .listPush key side value
  | pop side => .listPop key side
  | get position => .listGet key position
  | range start stop => .listRange key start stop
  | set position value => .listSet key position value
  | trim start stop => .listTrim key start stop
  | length => .listLength key
  | delete => .listDelete key

/-- The value that an operation puts into the list, if any. -/
def value? : Call → Option Value
  | push _ value => some value
  | set _ value => some value
  | _ => none

end Call

/-! ## Sequences -/

/-- The entries whose places, counted from zero, lie between two positions, of
which negative ones count from the end. -/
def between (values : List Value) (start stop : Int64) : List Value :=
  (values.zipIdx.filter fun entry =>
    normalize start.toInt values.length ≤ (entry.2 : Int) ∧
      (entry.2 : Int) ≤ normalize stop.toInt values.length).map (·.1)

/-- What an operation answers on a sequence, and the sequence after it; there
may be no sequence. -/
def Call.answer : Call → Option (List Value) → Except StoreError Reply × Option (List Value)
  | .create, none => (.ok .done, some [])
  | .create, some values => (.error .alreadyExists, some values)
  | _, none => (.error .notFound, none)
  | .push side value, some values =>
      (.ok (.integer (Int64.ofNat (values.length + 1))), some (side.add value values))
  | .pop side, some values =>
      match side.remove? values with
      | none => (.error .empty, some values)
      | some (value, rest) => (.ok (.value value), some rest)
  | .get position, some values =>
      match (place? values.length position).bind (values[·]?) with
      | none => (.error .outOfRange, some values)
      | some value => (.ok (.value value), some values)
  | .range start stop, some values => (.ok (.values (between values start stop)), some values)
  | .set position value, some values =>
      match place? values.length position with
      | none => (.error .outOfRange, some values)
      | some place => (.ok .done, some (values.set place value))
  | .trim start stop, some values => (.ok .done, some (between values start stop))
  | .length, some values => (.ok (.integer (Int64.ofNat values.length)), some values)
  | .delete, some _ => (.ok .done, none)

/-- The answers to a run of operations, and the sequence after them. -/
def answers : Option (List Value) → List Call →
    List (Except StoreError Reply) × Option (List Value)
  | sequence, [] => ([], sequence)
  | sequence, call :: calls =>
      let (outcome, sequence) := call.answer sequence
      let (outcomes, sequence) := answers sequence calls
      (outcome :: outcomes, sequence)

/-- Entries between two places, by the places they are counted from. -/
theorem map_filter_zipIdx {α : Type} (list : List α) (low high : Int) (start : Nat) :
    ((list.zipIdx start).filter fun entry =>
        low ≤ (entry.2 : Int) ∧ (entry.2 : Int) ≤ high).map (·.1) =
      (list.drop (low - start).toNat).take (high - max low start + 1).toNat := by
  induction list generalizing start with
  | nil => simp
  | cons a list ih =>
      have hrest := ih (start + 1)
      push_cast at hrest
      rw [List.zipIdx_cons]
      by_cases hlow : low ≤ start
      · by_cases hhigh : (start : Int) ≤ high
        · have hcount : (high - max low start + 1).toNat
              = (high - max low (start + 1) + 1).toNat + 1 := by
            omega
          have hnone : (low - start).toNat = 0 := by omega
          have hnone' : (low - (start + 1)).toNat = 0 := by omega
          rw [List.filter_cons_of_pos (by simpa using ⟨hlow, hhigh⟩), List.map_cons, hrest, hnone,
            hnone', hcount, List.drop_zero, List.drop_zero, List.take_succ_cons]
        · have hcount : (high - max low start + 1).toNat = 0 := by omega
          have hcount' : (high - max low (start + 1) + 1).toNat = 0 := by omega
          rw [List.filter_cons_of_neg (by simp; omega), hrest, hcount, hcount', List.take_zero,
            List.take_zero]
      · have hdrop : (low - start).toNat = (low - (start + 1)).toNat + 1 := by omega
        have hmax : max low (start : Int) = max low (start + 1) := by omega
        rw [List.filter_cons_of_neg (by simp; omega), hrest, hdrop, hmax, List.drop_succ_cons]

/-- The entries between two positions are the part of the list that its span
stands for. -/
theorem between_eq_part (values : List Value) (start stop : Int64) :
    between values start stop = part values (span? start.toInt stop.toInt values.length) := by
  rw [between, map_filter_zipIdx]
  simp only [span?]
  generalize normalize start.toInt values.length = low
  generalize normalize stop.toInt values.length = high
  simp only [Nat.cast_zero, Int.sub_zero]
  split
  · rename_i hempty
    rw [part]
    rcases Nat.lt_or_ge low.toNat values.length with hlt | hge
    · have hcount : (high - max low 0 + 1).toNat = 0 := by omega
      rw [hcount, List.take_zero]
    · rw [List.drop_eq_nil_of_le hge, List.take_nil]
  · rename_i hspan
    have hfirst : low.toNat = (max low 0).toNat := by omega
    rw [part, hfirst, List.take_eq_take_iff, List.length_drop]
    omega

/-! ## Lists that stand for sequences -/

/-- Whether a value is read back as it was written. -/
def Survives (value : Value) : Prop :=
  ∃ item, Frame.encode ⟨value, none⟩ = .ok item ∧ Frame.decode item = .ok ⟨value, none⟩

/-- A storable value that can be written survives. -/
theorem survives_of_storable {value : Value} {item : Bytes} (hstorable : value.Storable)
    (hencode : Frame.encode ⟨value, none⟩ = .ok item) : Survives value :=
  ⟨item, hencode, Frame.decode_encode hencode hstorable⟩

/-- Whether the table holds the sequence as the list at a key, and within how
many steps its indices can have been reached. -/
def Represents (table : Table) (key : String) (steps : Nat) : Option (List Value) → Prop
  | none => table.Vacant key
  | some values => ∃ handle items, Stored table key handle none items ∧ Holding items values ∧
      items.length ≤ steps ∧ Near handle steps

namespace Holding

variable {items : List Bytes} {values : List Value}

theorem add (h : Holding items values) {item : Bytes} {value : Value}
    (hitem : Frame.decode item = .ok ⟨value, none⟩) (side : End) :
    Holding (side.add item items) (side.add value values) := by
  unfold Holding at h ⊢
  cases side <;> simp [End.add, h, hitem]

/-- The item at an end is that of the value at the end. -/
theorem remove? (h : Holding items values) (side : End) :
    match side.remove? items with
    | none => side.remove? values = none
    | some (item, rest) => ∃ value others, side.remove? values = some (value, others) ∧
        Frame.decode item = .ok ⟨value, none⟩ ∧ Holding rest others := by
  cases side with
  | left =>
      cases items with
      | nil =>
          have hnil : values = [] := by simpa using h.length_eq.symm
          rw [hnil]
          rfl
      | cons item items =>
          cases values with
          | nil => simpa using h.length_eq
          | cons value values =>
              rcases cons_iff.mp h with ⟨hdecode, hrest⟩
              exact ⟨value, values, rfl, hdecode, hrest⟩
  | right =>
      rcases List.eq_nil_or_concat items with rfl | ⟨items, item, rfl⟩
      · have hnil : values = [] := by simpa using h.length_eq.symm
        rw [hnil]
        rfl
      · rcases List.eq_nil_or_concat values with rfl | ⟨values, value, rfl⟩
        · simpa using h.length_eq
        · unfold Holding at h
          simp only [List.concat_eq_append, List.map_append, List.map_cons, List.map_nil] at h ⊢
          rcases List.append_inj' h rfl with ⟨hrest, hlast⟩
          simp only [End.remove?, List.getLast?_append, List.getLast?_singleton, Option.some_or,
            Option.map_some, List.dropLast_concat]
          exact ⟨value, values, rfl, (List.cons.inj hlast).1, hrest⟩

theorem set (h : Holding items values) {item : Bytes} {value : Value}
    (hitem : Frame.decode item = .ok ⟨value, none⟩) (place : Nat) :
    Holding (items.set place item) (values.set place value) := by
  unfold Holding at h ⊢
  rw [List.map_set, List.map_set, h, hitem]

theorem span (h : Holding items values) (span : Option (Int × Int)) :
    Holding (Deque.part items span) (Deque.part values span) := by
  cases span with
  | none => rfl
  | some span => exact h.part span.1.toNat (span.2 - span.1 + 1).toNat

end Holding

/-! ## Single operations -/

section Steps

variable {table : Table} {key : String} {steps : Nat}

/-- Where there is no list, all operations but the creation fail. -/
theorem ends_call_absent (env : Environment) (hkey : Key.isReserved key = false)
    (h : table.Vacant key) (call : Call) :
    Ends table ((call.operation key).perform env) fun outcome after =>
      outcome = (call.answer none).1 ∧ Represents after key (steps + 1) (call.answer none).2 := by
  have habsent := h _ (.self key)
  have hread := run_readHandle_none habsent
  cases call with
  | create =>
      rcases exists_encode_empty with ⟨contents, hcontents⟩
      refine ends_silent (.of_run (run_create hkey habsent hcontents) ⟨rfl, .empty, [], ?_⟩)
      exact ⟨stored_empty h hcontents, rfl, by simp, near_empty _⟩
  | push side value => exact .map _ (.bind_error hread ⟨rfl, h⟩)
  | pop side => exact .map _ (.bind_error hread ⟨rfl, h⟩)
  | get position => exact .map _ (.bind_error hread ⟨rfl, h⟩)
  | range start stop => exact .map _ (.bind_error hread ⟨rfl, h⟩)
  | set position value => exact ends_silent (.bind_error hread ⟨rfl, h⟩)
  | trim start stop => exact ends_silent (.bind_error hread ⟨rfl, h⟩)
  | length => exact .map _ (.bind_error hread ⟨rfl, h⟩)
  | delete => exact ends_silent (.bind_error (run_readAs_none .list habsent) ⟨rfl, h⟩)

/-- Whether an operation answered what the sequence answers, and left what the
sequence becomes. -/
def Answered (key : String) (steps : Nat) (values : List Value) (call : Call)
    (outcome : Except StoreError Reply) (after : Table) : Prop :=
  outcome = (call.answer (some values)).1 ∧
    Represents after key (steps + 1) (call.answer (some values)).2

section Present

variable {handle : ListHandle} {items : List Bytes} {values : List Value}

theorem ends_push_answered (hstored : Stored table key handle none items)
    (hholding : Holding items values) (hcount : items.length ≤ steps) (hnear : Near handle steps)
    (hsteps : steps + 1 < 9223372036854775808) (side : End) {value : Value}
    (hvalue : Survives value) :
    Ends table (push key value side) fun outcome after =>
      Answered key steps values (.push side value) (outcome.map .integer) after := by
  have hroom := hnear.not_full hstored.describes hcount hsteps side
  have hlength := hholding.length_eq
  rcases hvalue with ⟨item, hencode, hdecode⟩
  refine (ends_push hstored value side).conseq ?_
  rintro (e | length) after hafter
  · rcases hafter with ⟨_, hfull | ⟨fault, hfault⟩⟩
    · exact absurd hfull hroom
    · rw [hencode] at hfault
      cases hfault
  · rcases hafter with ⟨_, hanswer, item', hencode', hstored'⟩
    rw [hencode] at hencode'
    cases hencode'
    have hreply : length = Int64.ofNat (values.length + 1) := by
      apply Int64.toInt_inj.mp
      rw [hanswer, Int64.toInt_ofNat_of_lt (by omega), hlength]
      rfl
    refine ⟨by rw [hreply]; rfl, grown handle side, side.add item items, hstored', ?_⟩
    refine ⟨hholding.add hdecode side, ?_, hnear.grown hroom⟩
    rw [End.length_add]
    omega

theorem ends_pop_answered (hstored : Stored table key handle none items)
    (hholding : Holding items values) (hcount : items.length ≤ steps) (hnear : Near handle steps)
    (side : End) :
    Ends table (pop key side) fun outcome after =>
      Answered key steps values (.pop side) (outcome.map .value) after := by
  refine (ends_pop hstored side).conseq ?_
  intro outcome after hafter
  have hsides := hholding.remove? side
  cases hremove : side.remove? items with
  | none =>
      rw [hremove] at hafter hsides
      rcases hafter with ⟨rfl, rfl⟩
      simp only [Answered, Call.answer, hsides]
      exact ⟨rfl, handle, items, hstored, hholding, by omega, hnear.succ⟩
  | some removed =>
      rcases removed with ⟨item, rest⟩
      rw [hremove] at hafter hsides
      rcases hsides with ⟨value, others, hothers, hdecode, hrest⟩
      rcases hafter with ⟨houtcome, hafter⟩
      rw [valueOf_of_decode hdecode] at houtcome
      subst houtcome
      have hrestCount := End.length_of_remove? hremove
      have hdescribes := hstored.describes
      rw [hrestCount] at hdescribes
      simp only [Answered, Call.answer, hothers]
      exact ⟨rfl, shrunk handle side, rest, hafter, hrest, by omega,
        (hnear.shrunk hdescribes side).succ⟩

/-- A read by position answers the entry at its place. -/
theorem run_get_answered (hstored : Stored table key handle none items)
    (hholding : Holding items values) (position : Int64) :
    (get key position).run (ofTable table) =
      (match (place? values.length position).bind (values[·]?) with
        | none => .error .outOfRange
        | some value => .ok value, ofTable table) := by
  have hlength := hholding.length_eq
  rw [run_get hstored position, ← hlength]
  cases hplace : place? items.length position with
  | none => rfl
  | some place =>
      have hlt := lt_of_place? hplace
      have hentry := hholding.getElem? place
      simp only [Option.bind_some]
      rw [List.getElem?_eq_getElem hlt, List.getElem?_eq_getElem (by omega)] at hentry
      rw [List.getElem?_eq_getElem hlt, List.getElem?_eq_getElem (by omega)]
      have hdecode := Option.some.inj hentry
      simp only [valueOf_of_decode hdecode]

theorem ends_set_answered (hstored : Stored table key handle none items)
    (hholding : Holding items values) (hcount : items.length ≤ steps) (hnear : Near handle steps)
    (position : Int64) {value : Value} (hvalue : Survives value) :
    Ends table (set key position value) fun outcome after =>
      Answered key steps values (.set position value) (outcome.map fun _ => .done) after := by
  rcases hvalue with ⟨item, hencode, hdecode⟩
  refine (ends_set hstored position value).conseq ?_
  intro outcome after hafter
  rw [Answered, Call.answer, ← hholding.length_eq]
  cases hplace : place? items.length position with
  | none =>
      rw [hplace] at hafter
      rcases hafter with ⟨rfl, rfl⟩
      exact ⟨rfl, handle, items, hstored, hholding, by omega, hnear.succ⟩
  | some place =>
      rw [hplace, hencode] at hafter
      rcases hafter with ⟨rfl, hstored'⟩
      refine ⟨rfl, handle, items.set place item, hstored', hholding.set hdecode place, ?_,
        hnear.succ⟩
      rw [List.length_set]
      omega

theorem ends_trim_answered (hstored : Stored table key handle none items)
    (hholding : Holding items values) (hcount : items.length ≤ steps) (hnear : Near handle steps)
    (hsteps : steps + 1 < 9223372036854775808) (start stop : Int64) :
    Ends table (trim key start stop) fun outcome after =>
      Answered key steps values (.trim start stop) (outcome.map fun _ => .done) after := by
  have htop : handle.tail.toInt < 9223372036854775807 := by
    have htail := hnear.2
    omega
  refine (ends_trim hstored htop start stop).conseq ?_
  rintro outcome after ⟨rfl, next, hwithin, hstored'⟩
  refine ⟨rfl, next, _, hstored', ?_, ?_, (hwithin.near hnear).succ⟩
  · rw [between_eq_part, ← hholding.length_eq]
    exact hholding.span _
  · have hpart := length_part_le items (span? start.toInt stop.toInt items.length)
    omega

end Present

/-- An operation on a list answers what the sequence answers, and leaves what
the sequence becomes. -/
theorem ends_call_present (env : Environment) (hkey : Key.isReserved key = false)
    {values : List Value} (h : Represents table key steps (some values))
    (hsteps : steps + 1 < 9223372036854775808) {call : Call}
    (hvalue : ∀ value, call.value? = some value → Survives value) :
    Ends table ((call.operation key).perform env) fun outcome after =>
      Answered key steps values call outcome after := by
  rcases h with ⟨handle, items, hstored, hholding, hcount, hnear⟩
  have hsame : Represents table key (steps + 1) (some values) :=
    ⟨handle, items, hstored, hholding, by omega, hnear.succ⟩
  cases call with
  | create =>
      exact ends_silent (.of_run (run_create_taken hkey hstored.frame.get?_ne_none _) ⟨rfl, hsame⟩)
  | push side value =>
      exact .map _ (ends_push_answered hstored hholding hcount hnear hsteps side (hvalue value rfl))
  | pop side => exact .map _ (ends_pop_answered hstored hholding hcount hnear side)
  | get position =>
      refine .map _ (.of_run (run_get_answered hstored hholding position) ?_)
      simp only [Answered, Call.answer]
      cases (place? values.length position).bind (values[·]?) with
      | none => exact ⟨rfl, hsame⟩
      | some value => exact ⟨rfl, hsame⟩
  | range start stop =>
      refine .map _ (.of_run (run_range hstored hholding start stop) ⟨?_, hsame⟩)
      rw [← between_eq_part]
      rfl
  | set position value =>
      exact ends_silent
        (ends_set_answered hstored hholding hcount hnear position (hvalue value rfl))
  | trim start stop =>
      exact ends_silent (ends_trim_answered hstored hholding hcount hnear hsteps start stop)
  | length =>
      refine .map _ (.bind_run (run_readHandle hstored.frame) (.pure ⟨?_, hsame⟩))
      have hreply : handle.length = Int64.ofNat values.length := by
        apply Int64.toInt_inj.mp
        rw [hstored.describes.length, hholding.length_eq,
          Int64.toInt_ofNat_of_lt (by rw [← hholding.length_eq]; omega)]
      rw [Call.answer, ← hreply]
      rfl
  | delete =>
      have hread : (readAs (Key.ofText key) .list).run (ofTable table)
          = (.ok ⟨.list handle, none⟩, ofTable table) := run_readAs hstored.frame
      refine ends_silent (.bind_run hread ((ends_purge hstored).conseq ?_))
      rintro outcome after ⟨rfl, hvacant⟩
      exact ⟨rfl, hvacant⟩

/-- An operation on what may be a list answers what the sequence answers. -/
theorem ends_call (env : Environment) (hkey : Key.isReserved key = false)
    {sequence : Option (List Value)} (h : Represents table key steps sequence)
    (hsteps : steps + 1 < 9223372036854775808) {call : Call}
    (hvalue : ∀ value, call.value? = some value → Survives value) :
    Ends table ((call.operation key).perform env) fun outcome after =>
      outcome = (call.answer sequence).1 ∧
        Represents after key (steps + 1) (call.answer sequence).2 := by
  cases sequence with
  | none => exact ends_call_absent env hkey h call
  | some values => exact ends_call_present env hkey h hsteps hvalue

end Steps

/-! ## Layout -/

/-- Whether the rows of a table are those of one list, or there are none: its
metadata, and the item of each of its values, at the indices from the head to
the tail. -/
def LaidOut (table : Table) (key : String) : Option (List Value) → Prop
  | none => table = .empty
  | some values => ∃ handle : ListHandle,
      table.HasFrame (Key.ofText key) ⟨.list handle, none⟩ ∧
      handle.length.toInt = values.length ∧
      (handle = ⟨0, -1, 0⟩ ∨
        values ≠ [] ∧ handle.length.toInt = handle.tail.toInt - handle.head.toInt + 1) ∧
      (∀ physical, table.get? physical ≠ none ↔ physical = Key.ofText key ∨
        ∃ index : Int64, handle.head.toInt ≤ index.toInt ∧ index.toInt ≤ handle.tail.toInt ∧
          physical = Key.listItem key index) ∧
      ∀ (index : Int64) (place : Nat) (value : Value), values[place]? = some value →
        index.toInt = handle.head.toInt + place →
        table.HasFrame (Key.listItem key index) ⟨value, none⟩

/-- Whether everything in the table belongs to one key. -/
def Alone (table : Table) (key : String) : Prop :=
  ∀ physical, table.get? physical ≠ none → Key.Owns key physical

/-- What changes only rows of the key adds none of other keys. -/
theorem Alone.of_agreeOff {table after : Table} {key : String} (h : Alone table key)
    (hagree : table.AgreeOff (Key.Owns key) after) : Alone after key := by
  intro physical hget
  by_contra hnot
  rw [hagree physical hnot] at hget
  exact hnot (h physical hget)

/-- A table that holds nothing but one sequence is laid out as its list. -/
theorem Represents.laidOut {table : Table} {key : String} {steps : Nat}
    {sequence : Option (List Value)} (h : Represents table key steps sequence)
    (halone : Alone table key) : LaidOut table key sequence := by
  cases sequence with
  | none =>
      apply Table.ext_get?
      intro physical
      rw [Table.get?_empty]
      by_contra hget
      exact hget (h physical (halone physical hget))
  | some values =>
      rcases h with ⟨handle, items, hstored, hholding, _, _⟩
      have hlength := hstored.describes.length
      have htail := hstored.describes.tail
      have hcount := hholding.length_eq
      refine ⟨handle, hstored.frame, by omega, ?_, ?_, ?_⟩
      · by_cases hnil : values = []
        · left
          apply hstored.describes.empty
          rw [hcount, hnil]
          rfl
        · exact Or.inr ⟨hnil, by omega⟩
      · intro physical
        constructor
        · intro hget
          rcases halone physical hget with rfl | ⟨marker, hstem⟩
          · exact Or.inl rfl
          · by_cases hmarker : marker = .list
            · subst hmarker
              rcases hstored.spread.is_item physical hstem hget with ⟨index, rfl⟩
              rw [hstored.spread.at_index] at hget
              rcases (slot_ne_none_iff items _).mp hget with ⟨hlow, hhigh⟩
              exact Or.inr ⟨index, by omega, by omega, rfl⟩
            · have hbare := hstored.bare marker hmarker
              exact absurd ((Table.countUnder_eq_zero_iff table _).mp hbare physical hstem) hget
        · rintro (rfl | ⟨index, hlow, hhigh, rfl⟩)
          · exact hstored.frame.get?_ne_none
          · rw [hstored.spread.at_index]
            exact (slot_ne_none_iff items _).mpr ⟨by omega, by omega⟩
      · intro index place value hvalue hindex
        have hget := hstored.get?_place hindex
        have hentry := hholding.getElem? place
        rw [hvalue] at hentry
        rcases Option.map_eq_some_iff.mp hentry with ⟨item, hitem, hdecode⟩
        exact ⟨item, hget.trans hitem, hdecode⟩

/-! ## Runs -/

/-- A run of operations on one list, from a table that holds nothing else. -/
theorem run_represents {session : Session} {table : Table} {key : String} {steps : Nat}
    {sequence : Option (List Value)} (hkey : Key.isReserved key = false) (calls : List Call)
    (hengine : session.engine = .ofTable table) (h : Represents table key steps sequence)
    (halone : Alone table key) (hcount : steps + calls.length < 9223372036854775808)
    (hvalues : ∀ call ∈ calls, ∀ value, call.value? = some value → Survives value) :
    (session.run (calls.map fun call => .operation (call.operation key))).1 =
        (answers sequence calls).1 ∧
      ∃ after, (session.run (calls.map fun call => .operation (call.operation key))).2.engine =
          .ofTable after ∧
        Represents after key (steps + calls.length) (answers sequence calls).2 ∧
        Alone after key := by
  induction calls generalizing session table steps sequence with
  | nil => exact ⟨rfl, table, hengine, h, halone⟩
  | cons call calls ih =>
      rw [List.length_cons] at hcount
      rcases List.forall_mem_cons.mp hvalues with ⟨hvalue, hrest⟩
      have hfirst := ends_call session.environment hkey h (by omega) hvalue
      have hconfined : Confined (Key.Owns key) ((call.operation key).perform session.environment) :=
        Operation.confined_perform _ (by cases call <;> rfl) (by cases call <;> rfl)
      rcases hfirst.confined hconfined with ⟨outcome, after, hrun, ⟨houtcome, hafter⟩, hagree⟩
      have hstep : session.perform (call.operation key)
          = (outcome, { session with engine := .ofTable after }) := by
        rw [Session.perform, hengine, hrun]
      rcases @ih { session with engine := .ofTable after } after (steps + 1)
        (call.answer sequence).2 rfl hafter (halone.of_agreeOff hagree) (by omega) hrest
        with ⟨houtcomes, final, hfinal, hrepresents, halone'⟩
      have hsteps : steps + (call :: calls).length = steps + 1 + calls.length := by
        rw [List.length_cons]
        omega
      simp only [List.map_cons, Session.run, Session.step, hstep, answers, hsteps]
      exact ⟨by rw [houtcomes, houtcome], final, hfinal, hrepresents, halone'⟩

/-- Any run of operations on one list, from an empty store, answers what a
sequence answers, and its rows lie where its metadata says. -/
theorem run_calls_eq_sequence (session : Session) (hstart : session.engine = .ofTable .empty)
    (key : String) (hkey : Key.isReserved key = false) (calls : List Call)
    (hcount : calls.length < 2 ^ 63)
    (hvalues : ∀ call ∈ calls, ∀ value, call.value? = some value → Survives value) :
    (session.run (calls.map fun call => .operation (call.operation key))).1 =
        (answers none calls).1 ∧
      ∃ after, (session.run (calls.map fun call => .operation (call.operation key))).2.engine =
          .ofTable after ∧
        LaidOut after key (answers none calls).2 := by
  have hempty : Represents .empty key 0 none := fun physical _ => Table.get?_empty physical
  have halone : Alone .empty key := fun physical hget => absurd (Table.get?_empty physical) hget
  rcases run_represents hkey calls hstart hempty halone (by omega) hvalues
    with ⟨houtcomes, after, hafter, hrepresents, halone'⟩
  exact ⟨houtcomes, after, hafter, hrepresents.laidOut halone'⟩

/-- A list that grows at both ends, is cut to its middle and emptied. -/
theorem run_both_ends :
    let session : Session := ⟨.ofTable .empty, ⟨0⟩, ⟨60, by decide, by decide⟩, .none⟩
    let calls : List Call := [.push .left .null, .create, .push .right (.int 7),
      .push .left (.bool true), .push .right .null, .range (-3) (-2), .trim 1 1, .get (-1),
      .get (-2), .set 0 (.text "middle"), .pop .right, .pop .left, .length]
    Key.isReserved "key" = false ∧ calls.length < 2 ^ 63 ∧
      (∀ call ∈ calls, ∀ value, call.value? = some value → Survives value) ∧
      (session.run (calls.map fun call => .operation (call.operation "key"))).1 =
        [.error .notFound, .ok .done, .ok (.integer 1), .ok (.integer 2), .ok (.integer 3),
          .ok (.values [.bool true, .int 7]), .ok .done, .ok (.value (.int 7)), .error .outOfRange,
          .ok .done, .ok (.value (.text "middle")), .error .empty, .ok (.integer 0)] ∧
      ∃ after, (session.run (calls.map fun call => .operation (call.operation "key"))).2.engine =
        .ofTable after ∧ LaidOut after "key" (some []) := by
  intro session calls
  have hkey : Key.isReserved "key" = false := by decide
  have hcount : calls.length < 2 ^ 63 := by decide
  have hvalues : ∀ call ∈ calls, ∀ value, call.value? = some value → Survives value := by
    simp only [calls, List.forall_mem_cons, Call.value?, Option.some.injEq, forall_eq', reduceCtorEq,
      false_imp_iff, implies_true, true_and, and_true, List.not_mem_nil]
    exact ⟨survives_of_storable trivial rfl, survives_of_storable trivial rfl,
      survives_of_storable trivial rfl, survives_of_storable trivial rfl,
      survives_of_storable trivial rfl⟩
  exact ⟨hkey, hcount, hvalues, run_calls_eq_sequence session rfl "key" hkey calls hcount hvalues⟩

end StructuredStore.Deque

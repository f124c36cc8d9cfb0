import StructuredStore.Proofs.Frame.Faithful
import StructuredStore.Proofs.Repair.HalfWritten
import StructuredStore.Proofs.Store.Refinement
import StructuredStore.Proofs.Store.Unreserved

/-!
# Membership filters are exact

A filter answers that an item was added exactly if it was, since the filter was
created or cleared, whatever the hash makes of the items: the vectors of hashes lie
under the items themselves, and every rewrite of the metadata keeps the salt and
the number of hashes that the vectors were made with.

Main results:

- `runBy`: a session whose filters use a given hash; with the hash of the store it
  is that of the store.
- `Call.answer`: what a filter answers and becomes.
- `ends_call`: every operation on a filter does what is known of it.
- `run_exact`: so does every run, with any hash.
-/

namespace StructuredStore.Membership

open Engine Store
open Operation (ends_silent)

/-! ## Any hash -/

/-- The vector of hashes of an item, by a given hash. -/
def slotVectorBy (hash : Bytes → UInt64) (item salt : String) (slots : UInt8) : Bytes :=
  multiples (hash (Utf8.encode item ++ Utf8.encode salt)) slots.toNat

/-- Adds an item with its vector by a given hash. -/
def addBy (hash : Bytes → UInt64) (key item : String) : StoreM UInt64 := do
  let (handle, expireAt) ← readHandle key
  let known := (← Engine.get (itemKey key item)).isSome
  Store.write (itemKey key item) (.binary (slotVectorBy hash item handle.salt handle.slots)) none
  if known then return handle.count
  let count ← Store.increment handle.count
  writeHandle key { handle with count } expireAt
  return count

/-- Whether an item was added, by a given hash. -/
def containsBy (hash : Bytes → UInt64) (key item : String) : StoreM Bool := do
  let (handle, _) ← readHandle key
  match ← Store.read (itemKey key item) with
  | none => return false
  | some frame =>
      return frame.value = .binary (slotVectorBy hash item handle.salt handle.slots)

/-- What an operation does when filters use a given hash. -/
def performBy (hash : Bytes → UInt64) (env : Environment) : Operation → StoreM Reply
  | .bloomAdd key item => .count <$> addBy hash key item
  | .bloomContains key item => .flag <$> containsBy hash key item
  | op => op.perform env

/-- A step of a session whose filters use a given hash. -/
def stepBy (hash : Bytes → UInt64) (session : Session) :
    Session.Step → Except StoreError Reply × Session
  | .operation op =>
      let (outcome, engine) := (performBy hash session.environment op).run session.engine
      (outcome, { session with engine })
  | step => session.step step

/-- The outcomes of a session whose filters use a given hash, and the session after
them. -/
def runBy (hash : Bytes → UInt64) (session : Session) :
    List Session.Step → List (Except StoreError Reply) × Session
  | [] => ([], session)
  | first :: rest =>
      let (outcome, session) := stepBy hash session first
      let (outcomes, session) := runBy hash session rest
      (outcome :: outcomes, session)

/-- The operations on filters with the store's own hash are the store's operations. -/
theorem performBy_metro (env : Environment) (op : Operation) :
    performBy (Metro.hash seed) env op = op.perform env := by
  cases op <;> rfl

/-- A session's step with the store's own hash is the store's step. -/
theorem stepBy_metro (session : Session) (step : Session.Step) :
    stepBy (Metro.hash seed) session step = session.step step := by
  cases step with
  | operation op =>
      rw [stepBy, performBy_metro]
      rfl
  | _ => rfl

/-- The filters of the store use its own hash. -/
theorem runBy_metro (session : Session) (steps : List Session.Step) :
    runBy (Metro.hash seed) session steps = session.run steps := by
  induction steps generalizing session with
  | nil => rfl
  | cons step steps ih => simp only [runBy, Session.run, stepBy_metro, ih]

/-! ## Operations on one filter -/

/-- What is known of a filter: the number of hashes and the salt it was created
with, and the items that were added since then or since it was cleared. -/
structure Filter where
  slots : UInt8
  salt : String
  items : Finset String

/-- An operation on a filter. -/
inductive Call where
  | create (slots : Option UInt8) (salt : String)
  | add (item : String)
  | contains (item : String)
  | size
  | clear
  | expireAt (instant : Instant)
  | expireIn (span : Span)
  | clearExpiry
  | repair
  | delete
  /-- The removal of whatever lies at the key. -/
  | discard

/-- The number of items of a filter, as a reply. -/
def counted (filter : Filter) : Except StoreError Reply :=
  .ok (.count (UInt64.ofNat filter.items.card))

namespace Call

/-- The operation of the store on the filter at a key. -/
def operation (key : String) : Call → Operation
  | create slots salt => .bloomCreate key slots salt
  | add item => .bloomAdd key item
  | contains item => .bloomContains key item
  | size => .bloomSize key
  | clear => .bloomClear key
  | expireAt instant => .expireAt key instant
  | expireIn span => .expireIn key span
  | clearExpiry => .clearExpiry key
  | repair => .repair key
  | delete => .bloomDelete key
  | discard => .delete key

/-- What an operation answers, and the filter after it; there may be none.  Whether
an expiry could be set is nothing that the filter tells. -/
def answer : Call → Option Filter → Option (Except StoreError Reply) × Option Filter
  | create slots salt, state =>
      if slots.getD defaultSlots < minSlots ∨ maxSlots < slots.getD defaultSlots then
        (some (.error .outOfRange), state)
      else
        match state with
        | some filter => (some (.error .alreadyExists), some filter)
        | none =>
            if (Utf8.encode salt).length < 4294967296 then
              (some (.ok .done), some ⟨slots.getD defaultSlots, salt, ∅⟩)
            else (some (.error .overflow), none)
  | expireAt _, state => (none, state)
  | expireIn _, state => (none, state)
  | _, none => (some (.error .notFound), none)
  | add item, some filter =>
      let grown := { filter with items := insert item filter.items }
      (some (counted grown), some grown)
  | contains item, some filter => (some (.ok (.flag (item ∈ filter.items))), some filter)
  | size, some filter => (some (counted filter), some filter)
  | clear, some filter => (some (.ok .done), some { filter with items := ∅ })
  | clearExpiry, some filter => (some (.ok .done), some filter)
  | repair, some filter =>
      let count := filter.items.card
      (some (.ok (.repair ⟨.bloom, count, count, false⟩)), some filter)
  | delete, some _ => (some (.ok .done), none)
  | discard, some _ => (some (.ok .done), none)

end Call

/-! ## Rows -/

/-- The vectors that lie under the items of a filter. -/
def vectors (hash : Bytes → UInt64) (filter : Filter) (item : String) : Option Value :=
  if item ∈ filter.items then some (.binary (slotVectorBy hash item filter.salt filter.slots))
  else none

section Rows

variable {hash : Bytes → UInt64} {key : String} {filter : Filter} {table : Table}
  {expireAt : Option Instant} {steps : Nat}

theorem length_multiples (hash : UInt64) (count : Nat) :
    (multiples hash count).length = 8 * count := by
  induction count generalizing hash with
  | zero => rfl
  | succ count ih =>
      rw [multiples, List.length_append, Bytes.length_littleEndian, ih]
      omega

/-- A vector can be written and is read back. -/
theorem survives_slotVectorBy (hash : Bytes → UInt64) (item salt : String) (slots : UInt8) :
    Deque.Survives (.binary (slotVectorBy hash item salt slots)) := by
  have hshort : (slotVectorBy hash item salt slots).length < 4294967296 := by
    have hslots := slots.toNat_lt
    rw [slotVectorBy, length_multiples]
    omega
  obtain ⟨bytes, hbytes⟩ : ∃ bytes,
      Frame.encode ⟨.binary (slotVectorBy hash item salt slots), none⟩ = .ok bytes :=
    Frame.exists_encode (if_pos hshort) rfl
  exact Deque.survives_of_storable trivial hbytes

/-- An item is added exactly when some vector is kept for it. -/
theorem vectors_ne_none_iff (item : String) :
    item ∈ filter.items ↔ vectors hash filter item ≠ none := by
  rw [vectors]
  split <;> simp_all

/-- Another item is another vector. -/
theorem vectors_insert (item : String) :
    vectors hash { filter with items := insert item filter.items } =
      Function.update (vectors hash filter) item
        (some (.binary (slotVectorBy hash item filter.salt filter.slots))) := by
  funext other
  rw [Function.update_apply]
  split
  · rename_i heq
    rw [heq]
    exact if_pos (Finset.mem_insert_self item filter.items)
  · rename_i hne
    simp only [vectors, Finset.mem_insert, hne, false_or]

/-- Whether the table holds a filter: metadata with its number of items, and their
vectors. -/
structure Stored (hash : Bytes → UInt64) (key : String) (filter : Filter)
    (expireAt : Option Instant) (table : Table) : Prop where
  tallied : Tallied table key .bloom (fun count => .bloom ⟨filter.slots, filter.salt, count⟩)
    (UInt64.ofNat filter.items.card) expireAt
  placed : Placed table key .bloom (Key.namedItem key .bloom) (vectors hash filter)

namespace Stored

/-- The count in the metadata is the number of items. -/
theorem of_tallied {count : UInt64}
    (hplaced : Placed table key .bloom (Key.namedItem key .bloom) (vectors hash filter))
    (htallied : Tallied table key .bloom (fun count => .bloom ⟨filter.slots, filter.salt, count⟩)
      count expireAt) :
    count = UInt64.ofNat filter.items.card ∧ Stored hash key filter expireAt table := by
  have hcount : count = UInt64.ofNat filter.items.card :=
    (Named.of_placed hplaced).count_eq htallied vectors_ne_none_iff
  subst hcount
  exact ⟨rfl, htallied, hplaced⟩

/-- The count of items fits the width it is stored in. -/
theorem toNat_count (h : Stored hash key filter expireAt table) :
    (UInt64.ofNat filter.items.card).toNat = filter.items.card := by
  rw [← h.tallied.rows]
  exact (Named.of_placed h.placed).countUnder_eq vectors_ne_none_iff

/-- The metadata of a filter that is stored. -/
theorem frame (h : Stored hash key filter expireAt table) :
    table.HasFrame (Key.ofText key)
      ⟨.bloom ⟨filter.slots, filter.salt, UInt64.ofNat filter.items.card⟩, expireAt⟩ :=
  h.tallied.frame

/-- Only what belongs to the key matters. -/
theorem congr {other : Table} (h : Stored hash key filter expireAt table)
    (heq : ∀ physical, Key.Owns key physical → other.get? physical = table.get? physical) :
    Stored hash key filter expireAt other :=
  ⟨h.tallied.congr heq, h.placed.congr fun physical hstem => heq physical (.under hstem)⟩

/-- The metadata is written again with another expiry. -/
theorem insert_expiry {expireAt' : Option Instant} {contents : Bytes}
    (h : Stored hash key filter expireAt table)
    (hencode : Frame.encode
      ⟨.bloom ⟨filter.slots, filter.salt, UInt64.ofNat filter.items.card⟩, expireAt'⟩ =
        .ok contents) :
    Stored hash key filter (Frame.asStored expireAt')
      (table.insert (Key.ofText key) contents) := by
  have hexpireAt : Frame.asStored (Frame.asStored expireAt') = Frame.asStored expireAt' := by
    rw [← Frame.storedExpiry_encode hencode, Frame.asStored_storedExpiry]
  exact ⟨.of_insert_ofText h.tallied.counts (Frame.encode_asStored hencode) hexpireAt h.tallied.rows
    h.tallied.bare, h.placed.insert_ofText contents⟩

end Stored

/-- Whether the table holds what is known of the filter at a key, reached within a
number of steps. -/
def Stands (hash : Bytes → UInt64) (key : String) (steps : Nat) : Option Filter → Table → Prop
  | none, table => table.Vacant key
  | some filter, table => filter.items.card ≤ steps ∧
      ∃ expireAt, Stored hash key filter expireAt table

/-- What stands after some steps stands after one more. -/
theorem Stands.succ {state : Option Filter} (h : Stands hash key steps state table) :
    Stands hash key (steps + 1) state table := by
  cases state with
  | none => exact h
  | some filter => exact ⟨Nat.le_succ_of_le h.1, h.2⟩

/-- A bucket may change beside a filter. -/
theorem Stands.congr_bucket {state : Option Filter} {after : Table} {seconds : Int64}
    (h : Stands hash key steps state table) (hkey : Key.isReserved key = false)
    (hagree : table.AgreeOff (Key.Owns (Key.bucket seconds)) after) :
    Stands hash key steps state after := by
  have heq : ∀ physical, Key.Owns key physical → after.get? physical = table.get? physical :=
    fun physical howns => hagree physical (Key.not_owns_bucket hkey howns)
  cases state with
  | none => exact fun physical howns => (heq physical howns).trans (h physical howns)
  | some filter =>
      obtain ⟨hcard, expireAt, hstored⟩ := h
      exact ⟨hcard, expireAt, hstored.congr heq⟩

/-! ## Single operations -/

/-- Whether what is answered is what is known, and so is what is left. -/
def Answered (hash : Bytes → UInt64) (key : String) (steps : Nat) (state : Option Filter)
    (call : Call) (outcome : Except StoreError Reply) (after : Table) : Prop :=
  (∀ expected ∈ (call.answer state).1, outcome = expected) ∧
    Stands hash key (steps + 1) (call.answer state).2 after

theorem answered_of_eq {state next : Option Filter} {call : Call}
    {outcome : Except StoreError Reply} {after : Table}
    (hanswer : call.answer state = (some outcome, next))
    (hafter : Stands hash key (steps + 1) next after) :
    Answered hash key steps state call outcome after := by
  rw [Answered, hanswer]
  exact ⟨fun expected hexpected => Option.some.inj hexpected, hafter⟩

/-- Where nothing is told, the filter stays. -/
theorem answered_of_none {state : Option Filter} {call : Call}
    {outcome : Except StoreError Reply} {after : Table}
    (hanswer : call.answer state = (none, state)) (hafter : Stands hash key steps state after) :
    Answered hash key steps state call outcome after := by
  rw [Answered, hanswer]
  exact ⟨fun _ hexpected => (Option.not_mem_none _ hexpected).elim, hafter.succ⟩

/-- Reading the handle of a filter gives what its metadata says. -/
theorem run_readHandle {handle : BloomHandle}
    (hframe : table.HasFrame (Key.ofText key) ⟨.bloom handle, expireAt⟩) :
    (readHandle key).run (ofTable table) = (.ok (handle, expireAt), ofTable table) :=
  run_bind_ok (run_readAs hframe)

/-- A filter is created where none is, unless its salt is too long. -/
theorem ends_create_filter (env : Environment) (hkey : Key.isReserved key = false)
    {state : Option Filter} (h : Stands hash key steps state table) (slots : Option UInt8)
    (salt : String) :
    Ends table (performBy hash env (.bloomCreate key slots salt))
      (Answered hash key steps state (.create slots salt)) := by
  refine ends_silent ?_
  by_cases hslots : slots.getD defaultSlots < minSlots ∨ maxSlots < slots.getD defaultSlots
  · rw [create, if_pos hslots]
    exact .throw (answered_of_eq (if_pos hslots) h.succ)
  · rw [create, if_neg hslots]
    cases state with
    | some filter =>
        obtain ⟨_, _, hstored⟩ := id h
        exact .of_run (run_create_taken hkey hstored.frame.get?_ne_none _)
          (answered_of_eq (if_neg hslots) h.succ)
    | none =>
        by_cases hsalt : (Utf8.encode salt).length < 4294967296
        · have hcounts : Counts .bloom fun count =>
              .bloom ⟨slots.getD defaultSlots, salt, count⟩ := .bloom hsalt
          refine (ends_create_tallied hcounts hkey h).conseq ?_
          rintro outcome after ⟨rfl, htallied⟩
          refine answered_of_eq ((if_neg hslots).trans (if_pos hsalt)) ⟨Nat.zero_le _, none, ?_⟩
          have hplaced := Placed.of_countUnder_eq_zero (Named.places key .bloom) htallied.rows
          exact ⟨htallied, hplaced⟩
        · have hlong : ¬ (Value.bloom ⟨slots.getD defaultSlots, salt, 0⟩).Fits := by
            intro hfits
            exact hsalt (Nat.lt_succ_of_le (hfits.2 _ List.mem_cons_self))
          obtain ⟨hfits, _⟩ | ⟨_, hencode⟩ := Frame.writesIf_encode
            ⟨.bloom ⟨slots.getD defaultSlots, salt, 0⟩, none⟩
          · exact absurd hfits.1 hlong
          · exact .of_run (run_create_error hkey (h _ (.self key)) hencode)
              (answered_of_eq ((if_neg hslots).trans (if_neg hsalt)) h)

section Present

variable (hstored : Stored hash key filter expireAt table) (hcard : filter.items.card ≤ steps)
include hstored

/-- An item is found exactly if it was added. -/
theorem run_containsBy (item : String) :
    (containsBy hash key item).run (ofTable table) =
      (.ok (decide (item ∈ filter.items)), ofTable table) := by
  refine (run_bind_ok (run_readHandle hstored.frame)).trans ?_
  by_cases hitem : item ∈ filter.items
  · have hframe := hstored.placed.hasFrame (if_pos hitem)
    refine (run_bind_ok (run_read hframe)).trans ?_
    rw [decide_eq_true hitem]
    exact congrArg (fun found => (Except.ok found, ofTable table)) (decide_eq_true rfl)
  · have hnone := hstored.placed.get?_eq_none_iff.mpr (if_neg hitem)
    refine (run_bind_ok (run_read_none hnone)).trans ?_
    rw [decide_eq_false hitem]
    rfl

/-- A repair finds nothing to do. -/
theorem run_repair :
    (Repair.repair key).run (ofTable table) =
      (.ok ⟨.bloom, filter.items.card, filter.items.card, false⟩, ofTable table) := by
  have hsame := @Repair.run_recount_same table key expireAt .bloom _
    (fun count => .bloom ⟨filter.slots, filter.salt, count⟩) hstored.tallied.rows.symm
  rw [hstored.toNat_count] at hsame
  exact (Repair.run_repair_eq_recount hstored.tallied.counts hstored.tallied.frame).trans hsame

/-- All items are forgotten, but neither the salt nor the number of hashes. -/
theorem ends_clear :
    Ends table (Operation.silent (clear key)) (Answered hash key steps (some filter) .clear) := by
  refine ends_silent (.bind_run (run_readHandle hstored.frame)
    (hstored.tallied.ends_clear.conseq ?_))
  rintro outcome after ⟨rfl, htallied⟩
  refine answered_of_eq rfl ⟨Nat.zero_le _, expireAt, htallied, ?_⟩
  exact .of_countUnder_eq_zero (Named.places key .bloom) htallied.rows

include hcard

/-- Nothing changes. -/
theorem answered_same {call : Call} {outcome : Except StoreError Reply}
    (hanswer : call.answer (some filter) = (some outcome, some filter)) :
    Answered hash key steps (some filter) call outcome table :=
  answered_of_eq hanswer ⟨Nat.le_succ_of_le hcard, expireAt, hstored⟩

/-- An item is added, and the number of items answered. -/
theorem ends_add (hsteps : steps + 1 < 9223372036854775808) (item : String) :
    Ends table (Reply.count <$> addBy hash key item)
      (Answered hash key steps (some filter) (.add item)) := by
  obtain ⟨contents, hencode, hdecode⟩ :=
    survives_slotVectorBy hash item filter.salt filter.slots
  have hroom := hstored.toNat_count
  refine .map _ (.bind_run (run_readHandle hstored.frame)
    ((hstored.placed.ends_putItem hstored.tallied (by omega) item hencode hdecode).conseq ?_))
  rintro outcome after ⟨next, rfl, _, htallied, hplaced⟩
  rw [← vectors_insert] at hplaced
  obtain ⟨rfl, hgrown⟩ := Stored.of_tallied hplaced htallied
  have hinsert := Finset.card_insert_le item filter.items
  exact answered_of_eq rfl ⟨Nat.le_trans hinsert (by omega), expireAt, hgrown⟩

/-- The expiry is cleared, and all else stays. -/
theorem ends_clearExpiry :
    Ends table (Operation.silent (Expiry.clear key))
      (Answered hash key steps (some filter) .clearExpiry) := by
  refine ends_silent (.bind_run (run_readExisting hstored.frame) ?_)
  dsimp only
  by_cases hexpireAt : expireAt.isSome
  · obtain ⟨contents, hencode⟩ := hstored.tallied.counts.exists_encode
      (UInt64.ofNat filter.items.card) Frame.asStored_none
    rw [if_pos hexpireAt]
    refine .of_run (run_write hencode) (answered_of_eq rfl ⟨by omega, none, ?_⟩)
    exact hstored.insert_expiry hencode
  · rw [if_neg hexpireAt]
    exact .pure (answered_same hstored hcard rfl)

/-- An expiry is written into the metadata, or nothing is. -/
theorem ends_stamp (instant : Instant) :
    Ends table (Expiry.stamp key instant) fun _ after =>
      Stands hash key steps (some filter) after := by
  refine .bind_run (run_readExisting hstored.frame) ((ends_write table _ _ _).conseq ?_)
  rintro (e | _) after hafter
  · rw [hafter]
    exact ⟨hcard, expireAt, hstored⟩
  · obtain ⟨contents, hencode, rfl⟩ := hafter
    exact ⟨hcard, _, hstored.insert_expiry hencode⟩

end Present

/-! ## Any operation -/

section Any

variable {state : Option Filter} (h : Stands hash key steps state table)
  (hkey : Key.isReserved key = false)
include h hkey

/-- What is known of a filter stays when an expiry is set, or when that fails. -/
theorem ends_setAt (width : BucketWidth) (now instant : Instant) :
    Ends table (Expiry.setAt width now key instant) fun _ after =>
      Stands hash key steps state after := by
  refine Expiry.ends_setAt_of h ?_ fun hbefore hagree => hbefore.congr_bucket hkey hagree
  cases state with
  | none => exact .bind_error (run_bind_ok (run_read_none (h _ (.self key)))) h
  | some filter =>
      obtain ⟨hcard, _, hstored⟩ := h
      exact ends_stamp hstored hcard instant

theorem ends_expireAt (env : Environment) (instant : Instant) :
    Ends table (performBy hash env (.expireAt key instant))
      (Answered hash key steps state (.expireAt instant)) :=
  .map _ ((ends_setAt h hkey env.width env.now instant).conseq fun _ _ hafter =>
    answered_of_none rfl hafter)

theorem ends_expireIn (env : Environment) (span : Span) :
    Ends table (performBy hash env (.expireIn key span))
      (Answered hash key steps state (.expireIn span)) :=
  .map _ ((Expiry.ends_setIn_of h (ends_setAt h hkey env.width env.now)).conseq fun _ _ hafter =>
    answered_of_none rfl hafter)

end Any

/-- Where no filter is, nothing but its creation succeeds. -/
theorem ends_call_absent (h : Stands hash key steps none table) (hkey : Key.isReserved key = false)
    (env : Environment) (call : Call) :
    Ends table (performBy hash env (call.operation key))
      (Answered hash key steps none call) := by
  have habsent := h _ (.self key)
  have hbloom : (readHandle key).run (ofTable table) = (.error .notFound, ofTable table) :=
    run_bind_error (run_readAs_none .bloom habsent)
  have hany : (readExisting (Key.ofText key)).run (ofTable table) =
      (.error .notFound, ofTable table) :=
    run_bind_ok (run_read_none habsent)
  cases call with
  | create slots salt => exact ends_create_filter env hkey h slots salt
  | expireAt instant => exact ends_expireAt h hkey env instant
  | expireIn span => exact ends_expireIn h hkey env span
  | add item => exact .map _ (.bind_error hbloom (answered_of_eq rfl h))
  | contains item => exact .map _ (.bind_error hbloom (answered_of_eq rfl h))
  | size => exact .map _ (.bind_error hbloom (answered_of_eq rfl h))
  | clear => exact ends_silent (.bind_error hbloom (answered_of_eq rfl h))
  | clearExpiry => exact ends_silent (.bind_error hany (answered_of_eq rfl h))
  | repair => exact .map _ (.bind_error hany (answered_of_eq rfl h))
  | delete =>
      exact ends_silent (.bind_error (run_readAs_none .bloom habsent) (answered_of_eq rfl h))
  | discard => exact ends_silent (.bind_error hany (answered_of_eq rfl h))

/-- An operation on a filter answers what is known, and leaves what is known. -/
theorem ends_call_present (hstored : Stored hash key filter expireAt table)
    (hcard : filter.items.card ≤ steps) (hkey : Key.isReserved key = false)
    (hsteps : steps + 1 < 9223372036854775808) (env : Environment) (call : Call) :
    Ends table (performBy hash env (call.operation key))
      (Answered hash key steps (some filter) call) := by
  have hstands : Stands hash key steps (some filter) table := ⟨hcard, expireAt, hstored⟩
  cases call with
  | create slots salt => exact ends_create_filter env hkey hstands slots salt
  | add item => exact ends_add hstored hcard hsteps item
  | contains item =>
      exact .map _ (.of_run (run_containsBy hstored item) (answered_same hstored hcard rfl))
  | size =>
      exact .map _ (.bind_run (run_readHandle hstored.frame)
        (.pure (answered_same hstored hcard rfl)))
  | clear => exact ends_clear hstored
  | expireAt instant => exact ends_expireAt hstands hkey env instant
  | expireIn span => exact ends_expireIn hstands hkey env span
  | clearExpiry => exact ends_clearExpiry hstored hcard
  | repair => exact .map _ (.of_run (run_repair hstored) (answered_same hstored hcard rfl))
  | delete =>
      refine ends_silent ((hstored.tallied.ends_deleteAs rfl).conseq ?_)
      rintro outcome after ⟨rfl, hafter⟩
      exact answered_of_eq rfl hafter
  | discard =>
      refine ends_silent (.bind_run (run_readExisting hstored.frame)
        (hstored.tallied.ends_purge.conseq ?_))
      rintro outcome after ⟨rfl, hafter⟩
      exact answered_of_eq rfl hafter

/-- Every operation does what is known of it. -/
theorem ends_call {state : Option Filter} (h : Stands hash key steps state table)
    (hkey : Key.isReserved key = false) (hsteps : steps + 1 < 9223372036854775808)
    (env : Environment) (call : Call) :
    Ends table (performBy hash env (call.operation key))
      (Answered hash key steps state call) := by
  cases state with
  | none => exact ends_call_absent h hkey env call
  | some filter =>
      obtain ⟨hcard, _, hstored⟩ := h
      exact ends_call_present hstored hcard hkey hsteps env call

end Rows

/-! ## Runs -/

/-- What may happen in a session: an operation on the filter, or a move of the
clock. -/
inductive Event where
  | call (op : Call)
  | clockSet (instant : Instant)
  | clockAdvance (span : Span)

namespace Event

/-- The step of a session on the filter at a key. -/
def step (key : String) : Event → Session.Step
  | call op => .operation (op.operation key)
  | clockSet instant => .clockSet instant
  | clockAdvance span => .clockAdvance span

/-- What is answered, as far as the filter tells it, and the filter after it. -/
def answer : Event → Option Filter → Option (Except StoreError Reply) × Option Filter
  | call op, state => op.answer state
  | clockSet _, state | clockAdvance _, state => (some (.ok .done), state)

/-- How many operations of the store an event is. -/
def count : Event → Nat
  | call _ => 1
  | clockSet _ | clockAdvance _ => 0

end Event

/-- What is told of the outcomes of a session, and the filter after it. -/
def telling : Option Filter → List Event → List (Option (Except StoreError Reply)) × Option Filter
  | state, [] => ([], state)
  | state, event :: events =>
      let (told, next) := event.answer state
      let (rest, last) := telling next events
      (told :: rest, last)

/-- The steps of a session on the filter at a key. -/
def stepsOf (key : String) (events : List Event) : List Session.Step :=
  events.map (Event.step key)

/-- Whether the rows of a key are those of a filter, or there are none: metadata with
the number of hashes, the salt and the number of items, and an item for each text
with its vector. -/
def Laid (hash : Bytes → UInt64) (key : String) : Option Filter → Table → Prop
  | none, table => table.Vacant key
  | some filter, table =>
      (∃ expireAt, table.HasFrame (Key.ofText key)
        ⟨.bloom ⟨filter.slots, filter.salt, UInt64.ofNat filter.items.card⟩, expireAt⟩) ∧
      (∀ physical, Key.Owns key physical → (table.get? physical ≠ none ↔
        physical = Key.ofText key ∨ ∃ item ∈ filter.items, physical = itemKey key item)) ∧
      ∀ item ∈ filter.items, table.HasFrame (itemKey key item)
        ⟨.binary (slotVectorBy hash item filter.salt filter.slots), none⟩

section Runs

variable {hash : Bytes → UInt64} {key : String} {state : Option Filter} {table : Table}
  {steps : Nat}

/-- A filter that stands is laid out in rows. -/
theorem Stands.laid (h : Stands hash key steps state table) : Laid hash key state table := by
  cases state with
  | none => exact h
  | some filter =>
      obtain ⟨_, expireAt, hstored⟩ := h
      refine ⟨⟨expireAt, hstored.frame⟩, fun physical howns => ?_, fun item hitem => ?_⟩
      · rw [hstored.placed.get?_ne_none_iff hstored.tallied fun _ => howns]
        simp only [← vectors_ne_none_iff]
        rfl
      · exact hstored.placed.hasFrame (if_pos hitem)

theorem length_operations_cons (key : String) (event : Event) (events : List Event) :
    (Session.operations (stepsOf key (event :: events))).length =
      event.count + (Session.operations (stepsOf key events)).length := by
  cases event with
  | call op => exact Nat.add_comm _ 1
  | _ => exact (Nat.zero_add _).symm

/-- One event of a session. -/
theorem stepBy_tells (hkey : Key.isReserved key = false) {session : Session}
    (hengine : session.engine = .ofTable table) (h : Stands hash key steps state table)
    (event : Event) (hsteps : steps + event.count < 9223372036854775808) :
    ∃ outcome next after, stepBy hash session (event.step key) = (outcome, next) ∧
      next.engine = .ofTable after ∧ (∀ expected ∈ (event.answer state).1, outcome = expected) ∧
      Stands hash key (steps + event.count) (event.answer state).2 after := by
  cases event with
  | call op =>
      obtain ⟨outcome, after, hrun, houtcome, hafter⟩ :=
        ends_call h hkey hsteps session.environment op
      refine ⟨outcome, { session with engine := .ofTable after }, after, ?_, rfl, houtcome, hafter⟩
      rw [Event.step, stepBy, hengine, hrun]
  | clockSet instant =>
      exact ⟨_, _, table, rfl, hengine, fun _ hexpected => Option.some.inj hexpected, h⟩
  | clockAdvance span =>
      exact ⟨_, _, table, rfl, hengine, fun _ hexpected => Option.some.inj hexpected, h⟩

/-- A session does with a filter what is known of its operations. -/
theorem runBy_tells (hkey : Key.isReserved key = false) (events : List Event) {session : Session}
    (hengine : session.engine = .ofTable table) (h : Stands hash key steps state table)
    (hcount : steps + (Session.operations (stepsOf key events)).length < 9223372036854775808) :
    List.Forall₂ (fun told outcome => ∀ expected ∈ told, outcome = expected)
        (telling state events).1 (runBy hash session (stepsOf key events)).1 ∧
      ∃ after, (runBy hash session (stepsOf key events)).2.engine = .ofTable after ∧
        Laid hash key (telling state events).2 after := by
  induction events generalizing session steps state table with
  | nil => exact ⟨.nil, table, hengine, h.laid⟩
  | cons event events ih =>
      rw [length_operations_cons] at hcount
      obtain ⟨outcome, next, between, hstep, hnext, houtcome, hbetween⟩ :=
        stepBy_tells hkey hengine h event (by omega)
      obtain ⟨hrest, hlast⟩ := ih hnext hbetween (by omega)
      have hrun : runBy hash session (stepsOf key (event :: events)) =
          (outcome :: (runBy hash next (stepsOf key events)).1,
            (runBy hash next (stepsOf key events)).2) := by
        rw [stepsOf, List.map_cons, runBy, hstep]
        rfl
      rw [hrun]
      exact ⟨.cons houtcome hrest, hlast⟩

end Runs

/-- A filter that is not deleted keeps its number of hashes and its salt. -/
theorem Event.answer_keeps {event : Event} {filter next : Filter}
    (h : (event.answer (some filter)).2 = some next) :
    next.slots = filter.slots ∧ next.salt = filter.salt := by
  have hnext : some filter = some next ∨ next.slots = filter.slots ∧ next.salt = filter.salt := by
    cases event with
    | call op =>
        cases op with
        | create slots salt =>
            rw [answer, Call.answer] at h
            split at h <;> exact Or.inl h
        | add item | clear => cases h; exact Or.inr ⟨rfl, rfl⟩
        | delete | discard => cases h
        | _ => exact Or.inl h
    | _ => exact Or.inl h
  rcases hnext with hsame | hkept
  · cases hsame
    exact ⟨rfl, rfl⟩
  · exact hkept

/-- From an empty store, with any hash, a filter answers that an item was added
exactly if it was since the filter was created or cleared; it counts the different
items, and keeps its salt and number of hashes until it is deleted.  The hash of the
store is one of these. -/
theorem run_exact (session : Session) (hstart : session.engine = .ofTable .empty) (key : String)
    (hkey : Key.isReserved key = false) (events : List Event)
    (hcount : (Session.operations (stepsOf key events)).length < 2 ^ 63) :
    session.run (stepsOf key events) = runBy (Metro.hash seed) session (stepsOf key events) ∧
      (∀ hash : Bytes → UInt64,
        List.Forall₂ (fun told outcome => ∀ expected ∈ told, outcome = expected)
          (telling none events).1 (runBy hash session (stepsOf key events)).1 ∧
        ∃ after, (runBy hash session (stepsOf key events)).2.engine = .ofTable after ∧
          Laid hash key (telling none events).2 after) ∧
      ∀ (event : Event) (filter next : Filter), (event.answer (some filter)).2 = some next →
        next.slots = filter.slots ∧ next.salt = filter.salt := by
  refine ⟨(runBy_metro session _).symm, fun hash => ?_, fun _ _ _ => Event.answer_keeps⟩
  have hvacant : Stands hash key 0 none .empty := fun physical _ => Table.get?_empty physical
  exact runBy_tells hkey events hstart hvacant (by omega)

/-- With a hash that tells no two items apart. -/
theorem run_exact_constant :
    let session : Session := ⟨.ofTable .empty, ⟨0⟩, ⟨60, by decide, by decide⟩, .none⟩
    let later : Instant := .ofInt64 600000000000
    let events : List Event := [.call (.add "a"), .call (.create (some 6) "s"),
      .call (.create (some 5) "s"), .call (.add "a"), .call (.add "a:B:"), .call (.add "a"),
      .call (.expireAt later), .call (.contains "a"), .call (.contains "b"), .call .repair,
      .call .clear, .clockAdvance ⟨700000000000⟩, .call (.contains "a"), .call (.add "b"),
      .call .clearExpiry, .call .size, .call .discard, .call (.create none "t"),
      .call (.contains "b"), .call .size]
    let hash : Bytes → UInt64 := fun _ => 0
    Key.isReserved "k" = false ∧
      (Session.operations (stepsOf "k" events)).length < 2 ^ 63 ∧
      (runBy hash session (stepsOf "k" events)).1 =
        [.error .notFound, .error .outOfRange, .ok .done, .ok (.count 1), .ok (.count 2),
          .ok (.count 2), .ok (.flag true), .ok (.flag true), .ok (.flag false),
          .ok (.repair ⟨.bloom, 2, 2, false⟩), .ok .done, .ok .done, .ok (.flag false),
          .ok (.count 1), .ok .done, .ok (.count 1), .ok .done, .ok .done, .ok (.flag false),
          .ok (.count 0)] ∧
      List.Forall₂ (fun told outcome => ∀ expected ∈ told, outcome = expected)
        (telling none events).1 (runBy hash session (stepsOf "k" events)).1 := by
  intro session later events hash
  have hkey : Key.isReserved "k" = false := by decide
  have hcount : (Session.operations (stepsOf "k" events)).length < 2 ^ 63 := by decide
  exact ⟨hkey, hcount, by decide +kernel,
    ((run_exact session rfl "k" hkey events hcount).2.1 hash).1⟩

end StructuredStore.Membership

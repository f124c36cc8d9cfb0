import StructuredStore.Proofs.Layout.Transition

/-!
# The rows of reachable stores

After any run of operations on keys without colon the rows are the frames of
keys and of buckets, and the items of structures.  Each row is one of these, and
of one key only; items lie where the metadata of a structure of their kind says
so, and there are as many as it says.

Main results:

- `Partitioned`: the rows fall into frames and promised items.
- `Consistent.partitioned`: they do in every consistent store.
- `Session.run_partitioned`: they do after every run from an empty store.
-/

namespace StructuredStore

open Engine Store

/-! ## Parts of the rows -/

/-- A part of the rows: the frame of a logical key, or its items of one kind. -/
inductive Part where
  | frame (key : String)
  | items (key : String) (marker : Key.Marker)

namespace Part

/-- The logical key whose rows these are. -/
def key : Part → String
  | .frame key => key
  | .items key _ => key

/-- Whether a physical key lies in the part. -/
def Has : Part → Bytes → Prop
  | .frame key, physical => physical = Key.ofText key
  | .items key marker, physical => Key.itemStem key marker <+: physical

variable {part other : Part} {physical : Bytes}

theorem Has.owns (h : part.Has physical) : Key.Owns part.key physical := by
  cases part with
  | frame key => exact Or.inl h
  | items key marker => exact .under h

theorem exists_has {key : String} (h : Key.Owns key physical) :
    ∃ part : Part, part.key = key ∧ part.Has physical := by
  rcases h with hself | ⟨marker, hstem⟩
  · exact ⟨.frame key, rfl, hself⟩
  · exact ⟨.items key marker, rfl, hstem⟩

/-- The parts of one key are disjoint. -/
theorem Has.eq_of_key (h : part.Has physical) (hother : other.Has physical)
    (hkey : part.key = other.key) : part = other := by
  cases part with
  | frame key =>
      cases other with
      | frame key' =>
          cases hkey
          rfl
      | items key' marker =>
          cases hkey
          cases h
          exact absurd hother (Key.not_itemStem_prefix_ofText key marker)
  | items key marker =>
      cases other with
      | frame key' =>
          cases hkey
          cases hother
          exact absurd h (Key.not_itemStem_prefix_ofText key marker)
      | items key' marker' =>
          cases hkey
          rw [Key.marker_eq_of_stems h hother]

end Part

/-! ## Promised items -/

/-- How many items of a kind the frame of a key promises: none unless it is the
metadata of a structure of that kind. -/
def Table.promised (table : Table) (key : String) (marker : Key.Marker) : Nat :=
  match (table.get? (Key.ofText key)).map Frame.decode with
  | some (.ok frame) => if frame.value.marker? = some marker then frame.value.itemCount else 0
  | _ => 0

theorem Table.promised_of_hasFrame {table : Table} {key : String} {frame : Frame}
    (h : table.HasFrame (Key.ofText key) frame) (marker : Key.Marker) :
    table.promised key marker =
      if frame.value.marker? = some marker then frame.value.itemCount else 0 := by
  rcases h with ⟨bytes, hget, hdecode⟩
  simp only [promised, hget, Option.map_some, hdecode]

/-- What promises items can be read, and is metadata of their kind. -/
theorem Table.exists_hasFrame_of_promised {table : Table} {key : String} {marker : Key.Marker}
    (h : table.promised key marker ≠ 0) :
    ∃ frame, table.HasFrame (Key.ofText key) frame ∧ frame.value.marker? = some marker := by
  unfold promised at h
  cases hget : table.get? (Key.ofText key) with
  | none => simp [hget] at h
  | some bytes =>
      cases hdecode : Frame.decode bytes with
      | error e => simp [hget, hdecode] at h
      | ok frame =>
          refine ⟨frame, ⟨bytes, hget, hdecode⟩, ?_⟩
          by_contra hmarker
          simp [hget, hdecode, hmarker] at h

/-! ## Partitioned rows -/

/-- Whether the rows are the frames of keys without colon and of buckets, and
the items that these promise. -/
structure Partitioned (table : Table) : Prop where
  /-- Each row lies in one part of one key. -/
  row : ∀ physical, table.get? physical ≠ none →
    ∃! part : Part, Key.Logical part.key ∧ part.Has physical
  /-- Each frame shows its kind, and the metadata of structures can be read. -/
  frame : ∀ key bytes, Key.Logical key → table.get? (Key.ofText key) = some bytes →
    ∃ kind, Frame.peekKind bytes = .ok kind ∧
      (kind.isStructure = true → ∃ frame, Frame.decode bytes = .ok frame)
  /-- There are as many items of each kind as promised. -/
  items : ∀ key marker, Key.Logical key →
    table.countUnder (Key.itemStem key marker) = table.promised key marker

/-- No item lies without metadata of its kind. -/
theorem Partitioned.exists_metadata {table : Table} (h : Partitioned table) {key : String}
    {marker : Key.Marker} {physical : Bytes} (hkey : Key.Logical key)
    (hstem : Key.itemStem key marker <+: physical) (hget : table.get? physical ≠ none) :
    ∃ frame, table.HasFrame (Key.ofText key) frame ∧ frame.value.marker? = some marker := by
  apply Table.exists_hasFrame_of_promised
  rw [← h.items key marker hkey]
  exact Nat.ne_of_gt (Table.countUnder_pos hstem hget)

/-! ## What a key holds -/

namespace Holds

variable {table : Table} {key : String} {steps : Nat} {expireAt : Option Instant}

/-- Where a structure lies, its kind of items is the promised one, and the
others are absent. -/
theorem countUnder_eq_of_frame {frame : Frame} {marker : Key.Marker}
    (hframe : table.HasFrame (Key.ofText key) frame) (hmarker : frame.value.marker? = some marker)
    (hrows : table.countUnder (Key.itemStem key marker) = frame.value.itemCount)
    (hbare : ∀ other ≠ marker, table.countUnder (Key.itemStem key other) = 0)
    (other : Key.Marker) :
    table.countUnder (Key.itemStem key other) = table.promised key other := by
  rw [Table.promised_of_hasFrame hframe, hmarker]
  by_cases hother : other = marker
  · subst hother
    rw [if_pos rfl, hrows]
  · rw [if_neg (fun heq => hother (Option.some.inj heq).symm), hbare other hother]

/-- A key holds as many items as promised. -/
theorem countUnder_eq_promised (h : Holds table key steps expireAt) (marker : Key.Marker) :
    table.countUnder (Key.itemStem key marker) = table.promised key marker := by
  cases h with
  | vacant h _ =>
      have hnone : table.promised key marker = 0 := by
        simp only [Table.promised, h _ (.self key), Option.map_none]
      rw [hnone, ((Table.vacant_iff table key).mp h).2 marker]
  | scalar hget hkind hscalar _ _ hbare =>
      rw [hbare marker]
      by_contra hpromised
      rcases Table.exists_hasFrame_of_promised (Ne.symm hpromised)
        with ⟨frame, ⟨bytes, hget', hdecode⟩, hmarker⟩
      rw [hget] at hget'
      cases hget'
      rw [Frame.peekKind_of_decode hdecode] at hkind
      cases hkind
      rw [← Value.isSome_marker?, hmarker] at hscalar
      cases hscalar
  | deque h =>
      refine countUnder_eq_of_frame h.frame rfl ?_ h.bare marker
      rw [h.countUnder_eq, Value.itemCount, h.describes.length, Int.toNat_natCast]
  | tallied h =>
      have hrows := h.rows
      have hbare := h.bare
      have hframe := h.frame
      cases h.counts with
      | counted counted =>
          cases counted <;> exact countUnder_eq_of_frame hframe rfl hrows hbare marker
      | bloom _ => exact countUnder_eq_of_frame hframe rfl hrows hbare marker

/-- What lies at a key shows its kind, and can be read if it is a structure. -/
theorem exists_peekKind {bytes : Bytes} (h : Holds table key steps expireAt)
    (hget : table.get? (Key.ofText key) = some bytes) :
    ∃ kind, Frame.peekKind bytes = .ok kind ∧
      (kind.isStructure = true → ∃ frame, Frame.decode bytes = .ok frame) := by
  have hreadable : ∀ {frame : Frame}, table.HasFrame (Key.ofText key) frame →
      ∃ kind, Frame.peekKind bytes = .ok kind ∧
        (kind.isStructure = true → ∃ frame, Frame.decode bytes = .ok frame) := by
    rintro frame ⟨bytes', hget', hdecode⟩
    rw [hget] at hget'
    cases hget'
    exact ⟨_, Frame.peekKind_of_decode hdecode, fun _ => ⟨frame, hdecode⟩⟩
  cases h with
  | vacant h _ => simp [h _ (.self key)] at hget
  | scalar hget' hkind hscalar =>
      rw [hget] at hget'
      cases hget'
      refine ⟨_, hkind, fun hstructure => ?_⟩
      rw [hscalar] at hstructure
      cases hstructure
  | deque h => exact hreadable h.frame
  | tallied h => exact hreadable h.frame

end Holds

namespace Consistent

variable {table : Table} {steps : Nat} {names : Int64 → List String}

/-- Keys without colon and buckets hold what operations lead to. -/
theorem exists_holds (h : Consistent table steps names) {key : String} (hkey : Key.Logical key) :
    ∃ expireAt, Holds table key (steps + 1) expireAt := by
  rcases hkey with hfree | ⟨seconds, rfl⟩
  · exact ⟨_, (h.key key hfree).succ⟩
  · exact ⟨none, (h.bucket seconds).holds⟩

/-- The rows of a consistent store fall into frames and promised items. -/
theorem partitioned (h : Consistent table steps names) : Partitioned table := by
  constructor
  · intro physical hget
    rcases h.owned physical hget with ⟨key, hkey, howns⟩
    rcases Part.exists_has howns with ⟨part, rfl, hhas⟩
    refine ⟨part, ⟨hkey, hhas⟩, ?_⟩
    rintro other ⟨hother, hhas'⟩
    exact hhas'.eq_of_key hhas (hother.eq_of_owns hkey hhas'.owns hhas.owns)
  · intro key bytes hkey hget
    rcases h.exists_holds hkey with ⟨_, hholds⟩
    exact hholds.exists_peekKind hget
  · intro key marker hkey
    rcases h.exists_holds hkey with ⟨_, hholds⟩
    exact hholds.countUnder_eq_promised marker

end Consistent

/-! ## Runs -/

namespace Session

/-- A store is consistent after every run of operations on keys without colon. -/
theorem run_consistent (session : Session) (hstart : session.engine = .ofTable .empty)
    (steps : List Step)
    (hkeys : ∀ op ∈ operations steps, ∀ key, op.key? = some key → Key.ColonFree key)
    (hcount : (operations steps).length < 2 ^ 63) :
    ∃ after, (session.run steps).2.engine = .ofTable after ∧
      ∃ names, Consistent after (operations steps).length names := by
  have hrun := @run_invariant (fun count table => ∃ names, Consistent table count names)
    (fun op => ∀ key, op.key? = some key → Key.ColonFree key) 9223372036854775808 0 session .empty
    ?_ steps hstart ⟨_, consistent_empty⟩ hkeys (by omega)
  · simpa using hrun
  · rintro op count table clock hkey ⟨names, h⟩ hlimit
    refine (h.ends_operation hlimit clock.isRegular_now hkey).conseq ?_
    intro outcome after htransition
    exact htransition.exists_consistent

/-- After any run from an empty store, the rows are the frames of keys and of
buckets, and as many items of each kind as these promise; no item lies without
metadata of its kind. -/
theorem run_partitioned (session : Session) (hstart : session.engine = .ofTable .empty)
    (steps : List Step)
    (hkeys : ∀ op ∈ operations steps, ∀ key, op.key? = some key → Key.ColonFree key)
    (hcount : (operations steps).length < 2 ^ 63) :
    ∃ after, (session.run steps).2.engine = .ofTable after ∧ Partitioned after ∧
      ∀ key marker physical, Key.Logical key → Key.itemStem key marker <+: physical →
        after.get? physical ≠ none →
        ∃ frame, after.HasFrame (Key.ofText key) frame ∧ frame.value.marker? = some marker := by
  rcases session.run_consistent hstart steps hkeys hcount with ⟨after, hafter, names, h⟩
  have hpartitioned := h.partitioned
  refine ⟨after, hafter, hpartitioned, ?_⟩
  intro key marker physical hkey hstem hget
  exact hpartitioned.exists_metadata hkey hstem hget

/-- A list that expires is swept, and its key made a map; another key keeps a
set and waits in a bucket. -/
theorem run_partitioned_list_to_map :
    let session : Session := ⟨.ofTable .empty, ⟨0⟩, ⟨60, by decide, by decide⟩, .none⟩
    let steps : List Step := [.operation (.listCreate "a"), .operation (.listPush "a" .left .null),
      .operation (.expireAt "a" (.ofInt64 5)), .operation (.setCreate "b"),
      .operation (.setAdd "b" "member"), .operation (.expireAt "b" (.ofInt64 7)),
      .clockSet (.ofInt64 6), .operation .sweepNow, .operation (.mapCreate "a"),
      .operation (.mapSet "a" "field" (.int 1))]
    (∀ op ∈ operations steps, ∀ key, op.key? = some key → Key.ColonFree key) ∧
      (operations steps).length < 2 ^ 63 ∧
      ∃ after, (session.run steps).2.engine = .ofTable after ∧ Partitioned after ∧
        after.promised "a" .list = 0 ∧ after.promised "a" .map = 1 ∧
        after.promised "b" .set = 1 ∧ after.rows.length = 6 := by
  intro session steps
  have hkeys : ∀ op ∈ operations steps, ∀ key, op.key? = some key → Key.ColonFree key := by
    have hall : ((operations steps).all fun op =>
        op.key?.all fun key => decide (Key.ColonFree key)) = true := by decide +kernel
    intro op hop key hkey
    simpa [hkey] using List.all_eq_true.mp hall op hop
  have hcount : (operations steps).length < 2 ^ 63 := by decide
  have hrows : let table := (session.run steps).2.engine.table
      table.promised "a" .list = 0 ∧ table.promised "a" .map = 1 ∧
        table.promised "b" .set = 1 ∧ table.rows.length = 6 := by
    decide +kernel
  rcases session.run_partitioned rfl steps hkeys hcount with ⟨after, hafter, hpartitioned, _⟩
  rw [hafter] at hrows
  exact ⟨hkeys, hcount, after, hafter, hpartitioned, hrows⟩

end Session
end StructuredStore

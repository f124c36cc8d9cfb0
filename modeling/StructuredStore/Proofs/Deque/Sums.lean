import StructuredStore.Proofs.Deque.Sequence
import StructuredStore.Proofs.Frame.Faithful
import StructuredStore.Proofs.Store.Endurance

/-!
# Indices beyond the last one

The operations on a list add to and subtract from 64-bit numbers.  Pushing checks
its sums and reports those that leave the range; the other operations break off
there.  Each operation is given here once more with all its sums spelled out, those
included that never leave the range, so that one can ask what it would do if they
were refused in another way.

A list that was only ever worked on by operations lies in front of the last index,
and the only sum that leaves the range is the index behind its last item when it is
trimmed there.  Metadata that was stored in another way is read as long as the
length is not negative, and its head and tail may lie anywhere.

Main results:

- `perform_eq_summing`: the operations, with their sums spelled out.
- `run_summing_exact`: sums are in range unless the metadata overflows.
- `run_summing_refused`: on metadata that overflows a sum leaves the range.
- `overflows_iff_of_describes`, `sums_in_range`: lists that operations made overflow
  only in one place.
-/

namespace StructuredStore.Deque

open Engine Store

/-! ## Sums -/

/-- What becomes of the exact result of arithmetic on 64-bit numbers, by what breaks
off if it is out of range. -/
abbrev Sums := Abort → Int → StoreM Int

/-- Results that leave the range end the operation. -/
def refusing (refusal : Abort → StoreError) : Sums :=
  fun cause i => if FitsInt64 i then pure i else throw (refusal cause)

/-- Results that leave the range break the operation off. -/
def breaking : Sums := refusing .aborted

/-- Results that leave the range are reported. -/
def checking : Sums := refusing fun _ => .overflow

/-- Results that leave the range come back at its other end. -/
def wrapping : Sums := fun _ i => pure (Int64.ofInt i).toInt

/-- Whether results within the range are what they are. -/
def Exact (sum : Sums) : Prop :=
  ∀ cause i, FitsInt64 i → sum cause i = pure i

/-- A sum that is refused out of range is exact in range. -/
theorem exact_refusing (refusal : Abort → StoreError) : Exact (refusing refusal) :=
  fun _ _ h => if_pos h

/-- A sum that wraps around is exact in range. -/
theorem exact_wrapping : Exact wrapping := fun _ _ h =>
  congrArg pure (toInt_ofInt_of_fits h)

/-- An unchecked sum breaks off. -/
theorem sum_bind_eq {α : Type} {a : Int64} {i : Int} {next : Int64 → StoreM α}
    {nextBy : Int → StoreM α}
    (h : FitsInt64 (a.toInt + i) → nextBy (a.toInt + i) = next (Int64.ofInt (a.toInt + i))) :
    (breaking .sum (a.toInt + i) >>= nextBy) = (sum a i >>= next) := by
  by_cases hfits : FitsInt64 (a.toInt + i)
  · rw [breaking, exact_refusing _ _ _ hfits, sum_of_fits hfits, pure_bind, pure_bind, h hfits]
  · rw [breaking, refusing, if_neg hfits, sum_of_not_fits hfits]
    rfl

/-- An unchecked difference breaks off. -/
theorem difference_bind_eq {α : Type} {a : Int64} {i : Int} {next : Int64 → StoreM α}
    {nextBy : Int → StoreM α}
    (h : FitsInt64 (a.toInt - i) → nextBy (a.toInt - i) = next (Int64.ofInt (a.toInt - i))) :
    (breaking .difference (a.toInt - i) >>= nextBy) = (difference a i >>= next) := by
  by_cases hfits : FitsInt64 (a.toInt - i)
  · rw [breaking, exact_refusing _ _ _ hfits, difference_of_fits hfits, pure_bind, pure_bind,
      h hfits]
  · rw [breaking, refusing, if_neg hfits, difference_of_not_fits hfits]
    rfl

/-! ## Operations with their sums -/

/-- A position counted from the left. -/
def normalizeBy (sum : Sums) (position length : Int) : StoreM Int :=
  if position < 0 then sum .sum (length + position) else pure position

/-- The positions from `start` to `stop`, clamped to the list, if there are any. -/
def spanBy (sum : Sums) (start stop length : Int) : StoreM (Option (Int × Int)) := do
  let first ← normalizeBy sum start length
  let last ← normalizeBy sum stop length
  let bound ← sum .difference (length - 1)
  return if length = 0 ∨ min last bound < max first 0 then none
    else some (max first 0, min last bound)

/-- The metadata with one more item at an end, and the index of that item; these
sums are always checked. -/
def growChecking (handle : ListHandle) (side : End) : StoreM (ListHandle × Int64) := do
  let length ← checking .sum (handle.length.toInt + 1)
  match side with
  | .left =>
      let index ← checking .difference (handle.head.toInt - 1)
      return ({ handle with head := Int64.ofInt index, length := Int64.ofInt length },
        Int64.ofInt index)
  | .right =>
      let index ← checking .sum (handle.tail.toInt + 1)
      return ({ handle with tail := Int64.ofInt index, length := Int64.ofInt length },
        Int64.ofInt index)

/-- Adds an item at an end and answers the new length. -/
def pushChecking (key : String) (value : Value) (side : End) : StoreM Int64 := do
  let (handle, expireAt) ← readHandle key
  let (grown, index) ← growChecking handle side
  writeItem key index value
  writeHandle key grown expireAt
  return grown.length

/-- The metadata with one item less at an end. -/
def shrinkBy (sum : Sums) (handle : ListHandle) (side : End) : StoreM ListHandle :=
  if handle.length = 1 then pure .empty
  else
    match side with
    | .left => do
        let head ← sum .sum (handle.head.toInt + 1)
        let length ← sum .difference (handle.length.toInt - 1)
        return { handle with head := Int64.ofInt head, length := Int64.ofInt length }
    | .right => do
        let tail ← sum .difference (handle.tail.toInt - 1)
        let length ← sum .difference (handle.length.toInt - 1)
        return { handle with tail := Int64.ofInt tail, length := Int64.ofInt length }

/-- Removes the item at an end and answers it. -/
def popBy (sum : Sums) (key : String) (side : End) : StoreM Value := do
  let (handle, expireAt) ← readHandle key
  if handle.length = 0 then throw .empty
  let value ← requireItem key (endIndex handle side)
  Engine.delete (Key.listItem key (endIndex handle side))
  let shrunk ← shrinkBy sum handle side
  writeHandle key shrunk expireAt
  return value

/-- The index of the item at a position of the list. -/
def locateBy (sum : Sums) (handle : ListHandle) (position : Int64) : StoreM Int64 := do
  let offset ← normalizeBy sum position.toInt handle.length.toInt
  if offset < 0 ∨ handle.length.toInt ≤ offset then throw .outOfRange
  return Int64.ofInt (← sum .sum (handle.head.toInt + offset))

/-- The item at a position. -/
def getBy (sum : Sums) (key : String) (position : Int64) : StoreM Value := do
  let (handle, _) ← readHandle key
  requireItem key (← locateBy sum handle position)

/-- Replaces the item at a position. -/
def setBy (sum : Sums) (key : String) (position : Int64) (value : Value) : StoreM Unit := do
  let (handle, _) ← readHandle key
  writeItem key (← locateBy sum handle position) value

/-- The items at `count` offsets from `offset` on; absent ones are passed over. -/
def readItemsBy (sum : Sums) (key : String) (head : Int64) : Int → Nat → StoreM (List Value)
  | _, 0 => pure []
  | offset, count + 1 => do
      let index ← sum .sum (head.toInt + offset)
      let item ← readItem key (Int64.ofInt index)
      let rest ← readItemsBy sum key head (offset + 1) count
      return item.toList ++ rest

/-- The items from one position to another. -/
def rangeBy (sum : Sums) (key : String) (start stop : Int64) : StoreM (List Value) := do
  let (handle, _) ← readHandle key
  match ← spanBy sum start.toInt stop.toInt handle.length.toInt with
  | none => return []
  | some (first, last) =>
      let gap ← sum .difference (last - first)
      let count ← sum .sum (gap + 1)
      reserve key count.toNat
      readItemsBy sum key handle.head first count.toNat

/-- Keeps only the items from one position to another. -/
def trimBy (sum : Sums) (key : String) (start stop : Int64) : StoreM Unit := do
  let (handle, expireAt) ← readHandle key
  if handle.length = 0 then return
  match ← spanBy sum start.toInt stop.toInt handle.length.toInt with
  | none =>
      removeIndices key handle.head (spanLength handle.head handle.tail)
      writeHandle key .empty expireAt
  | some (first, last) =>
      let head ← sum .sum (handle.head.toInt + first)
      let tail ← sum .sum (handle.head.toInt + last)
      removeIndices key handle.head (head - handle.head.toInt).toNat
      let next ← sum .sum (tail + 1)
      removeIndices key (Int64.ofInt next) (spanLength (Int64.ofInt next) handle.tail)
      let gap ← sum .difference (last - first)
      let count ← sum .sum (gap + 1)
      writeHandle key ⟨Int64.ofInt head, Int64.ofInt tail, Int64.ofInt count⟩ expireAt

/-- The operation of the store on the list at a key, with its sums spelled out. -/
def Call.summing (sum : Sums) (key : String) : Call → StoreM Reply
  | .create => Operation.silent (Deque.create key)
  | .push side value => .integer <$> pushChecking key value side
  | .pop side => .value <$> popBy sum key side
  | .get position => .value <$> getBy sum key position
  | .range start stop => .values <$> rangeBy sum key start stop
  | .set position value => Operation.silent (setBy sum key position value)
  | .trim start stop => Operation.silent (trimBy sum key start stop)
  | .length => .integer <$> Deque.length key
  | .delete => Operation.silent (Deque.delete key)

/-! ## Sums that a call takes -/

/-- The sums that a call takes on metadata and that may leave the range.  Positions,
lengths and counts lie within the length, and pushing checks its sums. -/
def Call.Takes (handle : ListHandle) : Call → Int → Prop
  | .pop .left, i => 2 ≤ handle.length.toInt ∧ i = handle.head.toInt + 1
  | .pop .right, i => 2 ≤ handle.length.toInt ∧ i = handle.tail.toInt - 1
  | .get position, i | .set position _, i =>
      ∃ offset, offset = normalize position.toInt handle.length.toInt ∧ 0 ≤ offset ∧
        offset < handle.length.toInt ∧ i = handle.head.toInt + offset
  | .range start stop, i =>
      ∃ first last, span? start.toInt stop.toInt handle.length.toInt = some (first, last) ∧
        ∃ offset, first ≤ offset ∧ offset ≤ last ∧ i = handle.head.toInt + offset
  | .trim start stop, i =>
      ∃ first last, span? start.toInt stop.toInt handle.length.toInt = some (first, last) ∧
        (i = handle.head.toInt + first ∨ i = handle.head.toInt + last ∨
          (FitsInt64 (handle.head.toInt + last) ∧ i = handle.head.toInt + last + 1))
  | _, _ => False

/-- What breaks off if one of these sums leaves the range. -/
def Call.cause : Call → Abort
  | .pop .right => .difference
  | _ => .sum

/-- Whether a call on metadata takes a sum that leaves the range. -/
def Call.Overflows (handle : ListHandle) (call : Call) : Prop :=
  ∃ i, call.Takes handle i ∧ ¬ FitsInt64 i

section Sums

variable {sum : Sums} {handle : ListHandle} {key : String}

/-- Counting a position stays within the length. -/
theorem normalizeBy_eq (hsum : Exact sum) (position : Int64) {length : Int64}
    (hlength : 0 ≤ length.toInt) :
    normalizeBy sum position.toInt length.toInt =
      pure (normalize position.toInt length.toInt) := by
  have hlow : -9223372036854775808 ≤ position.toInt := position.le_toInt
  have hhigh : length.toInt ≤ 9223372036854775807 := length.toInt_le
  unfold normalizeBy normalize
  split
  · exact hsum _ _ ⟨by omega, by omega⟩
  · rfl

/-- Positions are counted and clamped without leaving the range. -/
theorem spanBy_eq (hsum : Exact sum) (start stop : Int64) {length : Int64}
    (hlength : 0 ≤ length.toInt) :
    spanBy sum start.toInt stop.toInt length.toInt =
      pure (span? start.toInt stop.toInt length.toInt) := by
  have hhigh : length.toInt ≤ 9223372036854775807 := length.toInt_le
  have hbound : FitsInt64 (length.toInt - 1) := ⟨by omega, by omega⟩
  rw [spanBy, normalizeBy_eq hsum start hlength, normalizeBy_eq hsum stop hlength,
    hsum _ _ hbound, pure_bind, pure_bind, pure_bind, span?]

/-- An index is the one of the operations if its sum breaks off. -/
theorem locateBy_eq (hsum : Exact sum) (position : Int64) (hlength : 0 ≤ handle.length.toInt)
    (htakes : ∀ cause i, (Call.get position).Takes handle i → sum cause i = breaking cause i) :
    locateBy sum handle position = locate handle position := by
  unfold locateBy locate
  rw [normalizeBy_eq hsum position hlength, pure_bind]
  dsimp only
  split
  · rfl
  · rename_i hin
    rw [htakes .sum _ ⟨_, rfl, by omega, by omega, rfl⟩, sum_bind_eq fun _ => rfl]
    exact bind_pure _

/-- Items are read as the operations read them if the sums break off. -/
theorem readItemsBy_eq (head : Int64) {offset : Int} {count : Nat}
    (htakes : ∀ i, offset ≤ i → i < offset + count →
      sum .sum (head.toInt + i) = breaking .sum (head.toInt + i)) :
    readItemsBy sum key head offset count = readItems key head offset count := by
  induction count generalizing offset with
  | zero => rfl
  | succ count ih =>
      rw [readItemsBy, readItems, htakes offset le_rfl (by push_cast; omega),
        ih fun i hlow hhigh => htakes i (by omega) (by push_cast; omega)]
      exact sum_bind_eq fun _ => rfl

/-- Metadata shrinks as the operations let it shrink if the sums break off. -/
theorem shrinkBy_eq (hsum : Exact sum) (side : End) (hlength : 0 < handle.length.toInt)
    (htakes : ∀ cause i, (Call.pop side).Takes handle i → sum cause i = breaking cause i) :
    shrinkBy sum handle side = shrink handle side := by
  have hhigh : handle.length.toInt ≤ 9223372036854775807 := handle.length.toInt_le
  have hone : (1 : Int64).toInt = 1 := rfl
  unfold shrinkBy shrink
  split
  · rfl
  · rename_i hne
    have hlong : 2 ≤ handle.length.toInt := by
      rw [← Int64.toInt_inj, hone] at hne
      omega
    have hless : sum .difference (handle.length.toInt - 1) = pure (handle.length.toInt - 1) :=
      hsum _ _ ⟨by omega, by omega⟩
    have hlengthSub : Int64.ofInt (handle.length.toInt - 1) = handle.length - 1 := by
      rw [Int64.ofInt_sub, Int64.ofInt_toInt]
      rfl
    cases side with
    | left =>
        dsimp only
        rw [htakes .sum _ ⟨hlong, rfl⟩, hless]
        refine sum_bind_eq fun _ => ?_
        rw [pure_bind, hlengthSub]
    | right =>
        dsimp only
        rw [htakes .difference _ ⟨hlong, rfl⟩, hless]
        refine difference_bind_eq fun _ => ?_
        rw [pure_bind, hlengthSub]

/-- A number has a successor exactly if it is not the largest one. -/
theorem checking_add_one (a : Int64) :
    checking .sum (a.toInt + 1) =
      if a = Int64.maxValue then throw .overflow else pure (a + 1).toInt := by
  have hlow : -9223372036854775808 ≤ a.toInt := a.le_toInt
  have hhigh : a.toInt ≤ 9223372036854775807 := a.toInt_le
  have hlast : Int64.maxValue.toInt = 9223372036854775807 := rfl
  split
  · rename_i heq
    exact if_neg fun hfits => by rw [heq, hlast] at hfits; exact absurd hfits (by decide)
  · rename_i hne
    rw [← Int64.toInt_inj, hlast] at hne
    rw [toInt_add_one (by omega)]
    exact if_pos ⟨by omega, by omega⟩

/-- A number has a predecessor exactly if it is not the smallest one. -/
theorem checking_sub_one (a : Int64) :
    checking .difference (a.toInt - 1) =
      if a = Int64.minValue then throw .overflow else pure (a - 1).toInt := by
  have hlow : -9223372036854775808 ≤ a.toInt := a.le_toInt
  have hhigh : a.toInt ≤ 9223372036854775807 := a.toInt_le
  have hfirst : Int64.minValue.toInt = -9223372036854775808 := rfl
  split
  · rename_i heq
    exact if_neg fun hfits => by rw [heq, hfirst] at hfits; exact absurd hfits (by decide)
  · rename_i hne
    rw [← Int64.toInt_inj, hfirst] at hne
    rw [toInt_sub_one (by omega)]
    exact if_pos ⟨by omega, by omega⟩

/-- Pushing checks its sums. -/
theorem growChecking_eq (handle : ListHandle) (side : End) :
    growChecking handle side = grow handle side := by
  rw [growChecking, checking_add_one handle.length]
  unfold grow
  by_cases hlength : handle.length = Int64.maxValue
  · rw [if_pos hlength, if_pos hlength]
    rfl
  · rw [if_neg hlength, if_neg hlength, pure_bind]
    cases side with
    | left =>
        dsimp only
        rw [checking_sub_one]
        by_cases hhead : handle.head = Int64.minValue
        · rw [if_pos hhead, if_pos hhead]
          rfl
        · rw [if_neg hhead, if_neg hhead, pure_bind, Int64.ofInt_toInt, Int64.ofInt_toInt]
    | right =>
        dsimp only
        rw [checking_add_one]
        by_cases htail : handle.tail = Int64.maxValue
        · rw [if_pos htail, if_pos htail]
          rfl
        · rw [if_neg htail, if_neg htail, pure_bind, Int64.ofInt_toInt, Int64.ofInt_toInt]

/-- The metadata of a list has no negative length. -/
theorem length_nonneg_of_run_readHandle {engine after : Engine} {expireAt : Option Instant}
    (h : (readHandle key).run engine = (.ok (handle, expireAt), after)) :
    0 ≤ handle.length.toInt := by
  have hframe := ((finds_readHandle engine.table key).of_run h).2 _ rfl
  rcases hframe.storable with rfl | hpos
  · decide
  · exact hpos.le

/-- Two computations that read metadata first agree if they agree on what is
read. -/
theorem run_readHandle_bind_congr {α : Type} {next other : ListHandle × Option Instant → StoreM α}
    {engine : Engine}
    (h : ∀ handle expireAt after, (readHandle key).run engine = (.ok (handle, expireAt), after) →
      next (handle, expireAt) = other (handle, expireAt)) :
    (readHandle key >>= next).run engine = (readHandle key >>= other).run engine := by
  rw [run_bind, run_bind]
  rcases hread : (readHandle key).run engine with ⟨_ | ⟨handle, expireAt⟩, after⟩
  · rfl
  · exact congrArg (fun action => action.run after) (h handle expireAt after hread)

/-- Whether the sums that a call takes on the metadata it reads break off where they
leave the range. -/
def Agrees (sum : Sums) (key : String) (engine : Engine) (call : Call) : Prop :=
  ∀ handle expireAt after, (readHandle key).run engine = (.ok (handle, expireAt), after) →
    ∀ cause i, call.Takes handle i → sum cause i = breaking cause i

variable {engine : Engine}

theorem run_pushChecking (key : String) (value : Value) (side : End) (engine : Engine) :
    (pushChecking key value side).run engine = (push key value side).run engine := by
  apply run_readHandle_bind_congr
  intro handle expireAt after _
  simp only [growChecking_eq]

/-- A pop whose sums stay in range does not depend on how sums behave out of range. -/
theorem run_popBy (hsum : Exact sum) {side : End} (h : Agrees sum key engine (.pop side)) :
    (popBy sum key side).run engine = (pop key side).run engine := by
  apply run_readHandle_bind_congr
  intro handle expireAt after hread
  have hlength := length_nonneg_of_run_readHandle hread
  dsimp only
  by_cases hempty : handle.length = 0
  · rw [if_pos hempty, if_pos hempty]
    rfl
  · have hpos : 0 < handle.length.toInt := by
      have hzero : (0 : Int64).toInt = 0 := rfl
      rw [← Int64.toInt_inj, hzero] at hempty
      omega
    rw [if_neg hempty, if_neg hempty]
    simp only [shrinkBy_eq hsum side hpos (h handle expireAt after hread)]
    cases side <;> rfl

/-- A read whose sums stay in range does not depend on how sums behave out of range.
-/
theorem run_getBy (hsum : Exact sum) {position : Int64}
    (h : Agrees sum key engine (.get position)) :
    (getBy sum key position).run engine = (get key position).run engine := by
  apply run_readHandle_bind_congr
  intro handle expireAt after hread
  have hlength := length_nonneg_of_run_readHandle hread
  dsimp only
  rw [locateBy_eq hsum position hlength (h handle expireAt after hread)]

/-- Nor does a replacement. -/
theorem run_setBy (hsum : Exact sum) {position : Int64} {value : Value}
    (h : Agrees sum key engine (.set position value)) :
    (setBy sum key position value).run engine = (set key position value).run engine := by
  apply run_readHandle_bind_congr
  intro handle expireAt after hread
  have hlength := length_nonneg_of_run_readHandle hread
  dsimp only
  rw [locateBy_eq hsum position hlength (h handle expireAt after hread)]

/-- The number of positions of a span lies within the length. -/
theorem sum_count_eq (hsum : Exact sum) {start stop length : Int64} {first last : Int}
    (hspan : span? start.toInt stop.toInt length.toInt = some (first, last)) :
    sum .difference (last - first) = pure (last - first) ∧
      sum .sum (last - first + 1) = pure (last - first + 1) := by
  obtain ⟨hlow, hle, hhigh⟩ := span?_eq_some hspan
  have hbound : length.toInt ≤ 9223372036854775807 := length.toInt_le
  exact ⟨hsum _ _ ⟨by omega, by omega⟩, hsum _ _ ⟨by omega, by omega⟩⟩

/-- Nor does the reading of a span. -/
theorem run_rangeBy (hsum : Exact sum) {start stop : Int64}
    (h : Agrees sum key engine (.range start stop)) :
    (rangeBy sum key start stop).run engine = (range key start stop).run engine := by
  apply run_readHandle_bind_congr
  intro handle expireAt after hread
  have hlength := length_nonneg_of_run_readHandle hread
  dsimp only
  rw [spanBy_eq hsum start stop hlength, pure_bind]
  cases hspan : span? start.toInt stop.toInt handle.length.toInt with
  | none => rfl
  | some span =>
      obtain ⟨first, last⟩ := span
      obtain ⟨hgap, hcount⟩ := sum_count_eq hsum hspan
      dsimp only
      have hitems : readItemsBy sum key handle.head first (last - first + 1).toNat =
          readItems key handle.head first (last - first + 1).toNat := by
        apply readItemsBy_eq
        intro i hfirst hlast
        exact h handle expireAt after hread _ _ ⟨first, last, hspan, i, hfirst, by omega, rfl⟩
      rw [hgap, pure_bind, hcount, pure_bind, hitems]

/-- Nor does a trim, however many items it takes off. -/
theorem run_trimBy (hsum : Exact sum) {start stop : Int64}
    (h : Agrees sum key engine (.trim start stop)) :
    (trimBy sum key start stop).run engine = (trim key start stop).run engine := by
  apply run_readHandle_bind_congr
  intro handle expireAt after hread
  have hlength := length_nonneg_of_run_readHandle hread
  dsimp only
  by_cases hempty : handle.length = 0
  · rw [if_pos hempty, if_pos hempty]
  · rw [if_neg hempty, if_neg hempty, spanBy_eq hsum start stop hlength, pure_bind]
    cases hspan : span? start.toInt stop.toInt handle.length.toInt with
    | none => rfl
    | some span =>
        obtain ⟨first, last⟩ := span
        obtain ⟨hgap, hcount⟩ := sum_count_eq hsum hspan
        have htakes := h handle expireAt after hread .sum
        dsimp only
        rw [htakes _ ⟨first, last, hspan, Or.inl rfl⟩,
          htakes _ ⟨first, last, hspan, Or.inr (Or.inl rfl)⟩]
        refine sum_bind_eq fun hfirst => sum_bind_eq fun hlast => ?_
        have htail := toInt_ofInt_of_fits hlast
        rw [htakes _ ⟨first, last, hspan, Or.inr (Or.inr ⟨hlast, rfl⟩)⟩, toInt_ofInt_of_fits hfirst]
        refine bind_congr fun _ => ?_
        generalize Int64.ofInt (handle.head.toInt + last) = tail at htail ⊢
        rw [← htail]
        refine sum_bind_eq fun _ => ?_
        rw [hgap, pure_bind, hcount, pure_bind]

/-- Commands that run alike answer alike when the answer is only that they are done.
-/
theorem run_silent_congr {action other : StoreM Unit} (h : action.run engine = other.run engine) :
    (Operation.silent action).run engine = (Operation.silent other).run engine := by
  rw [Operation.silent, Operation.silent, run_bind, run_bind, h]

/-- An operation does what it does with its sums spelled out. -/
theorem run_summing (hsum : Exact sum) {call : Call} (h : Agrees sum key engine call)
    (env : Environment) :
    (call.summing sum key).run engine = ((call.operation key).perform env).run engine := by
  cases call with
  | create => rfl
  | push side value =>
      exact (run_map ..).trans ((run_pushChecking key value side engine) ▸ (run_map ..).symm)
  | pop side => exact (run_map ..).trans (run_popBy hsum h ▸ (run_map ..).symm)
  | get position => exact (run_map ..).trans (run_getBy hsum h ▸ (run_map ..).symm)
  | range start stop => exact (run_map ..).trans (run_rangeBy hsum h ▸ (run_map ..).symm)
  | set position value => exact run_silent_congr (run_setBy hsum h)
  | trim start stop => exact run_silent_congr (run_trimBy hsum h)
  | length => rfl
  | delete => rfl

end Sums

/-- The operations break off. -/
theorem perform_eq_summing (key : String) (call : Call) (env : Environment) (engine : Engine) :
    ((call.operation key).perform env).run engine = (call.summing breaking key).run engine :=
  (run_summing (exact_refusing _) (fun _ _ _ _ _ _ _ => rfl) env).symm

/-- What becomes of sums that leave the range changes nothing unless the metadata that
is read overflows. -/
theorem run_summing_exact {sum : Sums} (hsum : Exact sum) (key : String) (call : Call)
    (env : Environment) (engine : Engine) :
    (call.summing sum key).run engine = ((call.operation key).perform env).run engine ∨
      ∃ handle expireAt after, (readHandle key).run engine = (.ok (handle, expireAt), after) ∧
        call.Overflows handle := by
  by_cases hover : ∃ handle expireAt after,
      (readHandle key).run engine = (.ok (handle, expireAt), after) ∧ call.Overflows handle
  · exact Or.inr hover
  · refine Or.inl (run_summing hsum ?_ env)
    intro handle expireAt after hread cause i htakes
    have hfits : FitsInt64 i := by
      by_contra hnot
      exact hover ⟨handle, expireAt, after, hread, i, htakes, hnot⟩
    rw [hsum _ _ hfits, breaking, exact_refusing _ _ _ hfits]

/-! ## Metadata that overflows -/

/-- Whether a call gets as far as its sums: the item to remove can be read, and so
can the items that are passed on the way, for which there is a buffer. -/
def Call.Reaches (table : Table) (key : String) (handle : ListHandle) : Call → Prop
  | .pop side => ∃ frame, table.HasFrame (Key.listItem key (endIndex handle side)) frame
  | .range start stop =>
      (∀ first last, span? start.toInt stop.toInt handle.length.toInt = some (first, last) →
        (reserve key (last - first + 1).toNat).run (ofTable table) = (.ok (), ofTable table)) ∧
      ∀ index, table.get? (Key.listItem key index) = none ∨
        ∃ frame, table.HasFrame (Key.listItem key index) frame
  | _ => True

section Overflows

variable {refusal : Abort → StoreError} {table : Table} {key : String} {handle : ListHandle}
  {expireAt : Option Instant}

/-- A refused result ends what would go on with it. -/
theorem run_refusing_bind_of_not_fits {α : Type} {cause : Abort} {i : Int} (h : ¬ FitsInt64 i)
    (next : Int → StoreM α) (engine : Engine) :
    (refusing refusal cause i >>= next).run engine = (.error (refusal cause), engine) := by
  rw [refusing, if_neg h]
  rfl

/-- An index beyond the last one is refused. -/
theorem run_locateBy_refused {position : Int64} (hlength : 0 ≤ handle.length.toInt)
    (h : (Call.get position).Overflows handle) (engine : Engine) :
    (locateBy (refusing refusal) handle position).run engine = (.error (refusal .sum), engine) := by
  obtain ⟨i, ⟨offset, rfl, hlow, hhigh, rfl⟩, hfits⟩ := h
  rw [locateBy, normalizeBy_eq (exact_refusing _) position hlength, pure_bind]
  dsimp only
  rw [if_neg (by omega)]
  exact run_refusing_bind_of_not_fits hfits _ engine

/-- Where nothing unreadable lies, an item is read. -/
theorem run_readItem_of_readable (index : Int64)
    (h : table.get? (Key.listItem key index) = none ∨
      ∃ frame, table.HasFrame (Key.listItem key index) frame) :
    ∃ item, (readItem key index).run (ofTable table) = (.ok item, ofTable table) := by
  rcases h with hnone | ⟨frame, hframe⟩
  · exact ⟨none, run_bind_ok (run_read_none hnone)⟩
  · exact ⟨some frame.value, run_bind_ok (run_read hframe)⟩

/-- Reading items ends at the first index beyond the last one. -/
theorem run_readItemsBy_refused {head : Int64} {offset : Int} {count : Nat}
    (hread : ∀ index, table.get? (Key.listItem key index) = none ∨
      ∃ frame, table.HasFrame (Key.listItem key index) frame)
    (h : ∃ i, offset ≤ i ∧ i < offset + count ∧ ¬ FitsInt64 (head.toInt + i)) :
    (readItemsBy (refusing refusal) key head offset count).run (ofTable table) =
      (.error (refusal .sum), ofTable table) := by
  induction count generalizing offset with
  | zero =>
      obtain ⟨i, hlow, hhigh, -⟩ := h
      push_cast at hhigh
      omega
  | succ count ih =>
      rw [readItemsBy]
      by_cases hfits : FitsInt64 (head.toInt + offset)
      · obtain ⟨i, hlow, hhigh, hover⟩ := h
        have hne : i ≠ offset := by
          rintro rfl
          exact hover hfits
        obtain ⟨item, hitem⟩ :=
          run_readItem_of_readable (Int64.ofInt (head.toInt + offset)) (hread _)
        push_cast at hhigh
        have hrest : (readItemsBy (refusing refusal) key head (offset + 1) count).run
            (ofTable table) = (.error (refusal .sum), ofTable table) :=
          ih ⟨i, by omega, by omega, hover⟩
        rw [exact_refusing _ _ _ hfits, pure_bind, run_bind_ok hitem]
        exact run_bind_error hrest
      · exact run_refusing_bind_of_not_fits hfits _ _

/-- An item is removed from the end before the index next to it is refused. -/
theorem run_popBy_refused {side : End} (h : table.HasFrame (Key.ofText key) ⟨.list handle, expireAt⟩)
    (hreaches : (Call.pop side).Reaches table key handle)
    (hover : (Call.pop side).Overflows handle) :
    ((popBy (refusing refusal) key side).run (ofTable table)).1 =
      .error (refusal (Call.pop side).cause) := by
  obtain ⟨frame, hframe⟩ := hreaches
  obtain ⟨i, htakes, hfits⟩ := hover
  have hlong : 2 ≤ handle.length.toInt := by
    cases side <;> exact htakes.1
  have hzero : handle.length ≠ 0 := by
    rintro heq
    rw [heq] at hlong
    exact absurd hlong (by decide)
  have hone : handle.length ≠ 1 := by
    rintro heq
    rw [heq] at hlong
    exact absurd hlong (by decide)
  have hitem : (requireItem key (endIndex handle side)).run (ofTable table) =
      (.ok frame.value, ofTable table) := by
    obtain ⟨bytes, hget, hdecode⟩ := hframe
    rw [run_requireItem hget, valueOf_of_decode hdecode]
  have hshrink : ∀ engine, (shrinkBy (refusing refusal) handle side).run engine =
      (.error (refusal (Call.pop side).cause), engine) := by
    intro engine
    unfold shrinkBy
    rw [if_neg hone]
    cases side with
    | left => exact run_refusing_bind_of_not_fits (htakes.2 ▸ hfits) _ engine
    | right => exact run_refusing_bind_of_not_fits (htakes.2 ▸ hfits) _ engine
  rw [popBy, run_bind_ok (run_readHandle h)]
  dsimp only
  rw [if_neg hzero, run_bind_ok hitem, run_bind_ok (run_delete table _),
    run_bind_error (hshrink _)]

/-- Items are read up to the last index, and the next one is refused. -/
theorem run_rangeBy_refused {start stop : Int64}
    (h : table.HasFrame (Key.ofText key) ⟨.list handle, expireAt⟩)
    (hlength : 0 ≤ handle.length.toInt)
    (hreaches : (Call.range start stop).Reaches table key handle)
    (hover : (Call.range start stop).Overflows handle) :
    ((rangeBy (refusing refusal) key start stop).run (ofTable table)).1 =
      .error (refusal .sum) := by
  obtain ⟨i, ⟨first, last, hspan, offset, hlow, hhigh, rfl⟩, hfits⟩ := hover
  obtain ⟨hbuffer, hreadable⟩ := hreaches
  obtain ⟨hgap, hcount⟩ := sum_count_eq (exact_refusing refusal) hspan
  have hitems : (readItemsBy (refusing refusal) key handle.head first
      (last - first + 1).toNat).run (ofTable table) = (.error (refusal .sum), ofTable table) :=
    run_readItemsBy_refused hreadable ⟨offset, hlow, by omega, hfits⟩
  rw [rangeBy, run_bind_ok (run_readHandle h)]
  dsimp only
  rw [spanBy_eq (exact_refusing refusal) start stop hlength, pure_bind, hspan]
  dsimp only
  rw [hgap, pure_bind, hcount, pure_bind, run_bind_ok (hbuffer first last hspan), hitems]

/-- A kept end beyond the last index is refused, and so is the index behind it. -/
theorem run_trimBy_refused {start stop : Int64}
    (h : table.HasFrame (Key.ofText key) ⟨.list handle, expireAt⟩)
    (hlength : 0 ≤ handle.length.toInt) (hover : (Call.trim start stop).Overflows handle) :
    ((trimBy (refusing refusal) key start stop).run (ofTable table)).1 =
      .error (refusal .sum) := by
  obtain ⟨i, ⟨first, last, hspan, htakes⟩, hfits⟩ := hover
  obtain ⟨hlow, hle, hhigh⟩ := span?_eq_some hspan
  have hzero : handle.length ≠ 0 := by
    rintro heq
    rw [heq] at hhigh
    have hnone : (0 : Int64).toInt = 0 := rfl
    omega
  rw [trimBy, run_bind_ok (run_readHandle h)]
  dsimp only
  rw [if_neg hzero, spanBy_eq (exact_refusing refusal) start stop hlength, pure_bind, hspan]
  dsimp only
  by_cases hfirst : FitsInt64 (handle.head.toInt + first)
  · by_cases hlast : FitsInt64 (handle.head.toInt + last)
    · have hnext : ¬ FitsInt64 (handle.head.toInt + last + 1) := by
        rcases htakes with rfl | rfl | ⟨-, rfl⟩
        · exact absurd hfirst hfits
        · exact absurd hlast hfits
        · exact hfits
      have hroom : handle.head.toInt + (handle.head.toInt + first - handle.head.toInt).toNat ≤
          9223372036854775808 := by
        unfold FitsInt64 at hfirst
        omega
      obtain ⟨after, hremove, -⟩ := run_removeIndices table key hroom
      rw [exact_refusing _ _ _ hfirst, pure_bind, exact_refusing _ _ _ hlast, pure_bind,
        run_bind_ok hremove, run_refusing_bind_of_not_fits hnext]
    · rw [exact_refusing _ _ _ hfirst, pure_bind, run_refusing_bind_of_not_fits hlast]
  · rw [run_refusing_bind_of_not_fits hfirst]

/-- A read whose sum is out of range is refused by that sum. -/
theorem run_getBy_refused {position : Int64}
    (h : table.HasFrame (Key.ofText key) ⟨.list handle, expireAt⟩)
    (hlength : 0 ≤ handle.length.toInt) (hover : (Call.get position).Overflows handle) :
    ((getBy (refusing refusal) key position).run (ofTable table)).1 = .error (refusal .sum) := by
  rw [getBy, run_bind_ok (run_readHandle h)]
  exact congrArg Prod.fst (run_bind_error (run_locateBy_refused hlength hover _))

/-- A replacement whose sum is out of range is refused by that sum. -/
theorem run_setBy_refused {position : Int64} {value : Value}
    (h : table.HasFrame (Key.ofText key) ⟨.list handle, expireAt⟩)
    (hlength : 0 ≤ handle.length.toInt) (hover : (Call.set position value).Overflows handle) :
    ((setBy (refusing refusal) key position value).run (ofTable table)).1 =
      .error (refusal .sum) := by
  have hget : (Call.get position).Overflows handle := hover
  rw [setBy, run_bind_ok (run_readHandle h)]
  exact congrArg Prod.fst (run_bind_error (run_locateBy_refused hlength hget _))

theorem run_map_error {α : Type} {f : α → Reply} {action : StoreM α} {engine : Engine}
    {e : StoreError} (h : (action.run engine).1 = .error e) :
    ((f <$> action).run engine).1 = .error e := by
  rw [run_map, h]
  rfl

theorem run_silent_error {action : StoreM Unit} {engine : Engine} {e : StoreError}
    (h : (action.run engine).1 = .error e) :
    ((Operation.silent action).run engine).1 = .error e := by
  obtain ⟨after, hrun⟩ := exists_run_eq h
  rw [Operation.silent, run_bind_error hrun]

/-- On metadata that overflows, a sum leaves the range and is refused. -/
theorem run_summing_refused (refusal : Abort → StoreError) {call : Call}
    (h : table.HasFrame (Key.ofText key) ⟨.list handle, expireAt⟩)
    (hreaches : call.Reaches table key handle) (hover : call.Overflows handle) :
    ((call.summing (refusing refusal) key).run (ofTable table)).1 =
      .error (refusal call.cause) := by
  have hlength := length_nonneg_of_run_readHandle (run_readHandle h)
  cases call with
  | pop side => exact run_map_error (run_popBy_refused h hreaches hover)
  | get position => exact run_map_error (run_getBy_refused h hlength hover)
  | range start stop => exact run_map_error (run_rangeBy_refused h hlength hreaches hover)
  | set position value => exact run_silent_error (run_setBy_refused h hlength hover)
  | trim start stop => exact run_silent_error (run_trimBy_refused h hlength hover)
  | _ =>
      obtain ⟨i, htakes, -⟩ := hover
      exact htakes.elim

/-! ## Metadata of lists -/

section Described

variable {count : Nat}

/-- The items of a list lie at indices in range. -/
theorem fits_of_describes (h : Describes handle count) {offset : Int} (hlow : 0 ≤ offset)
    (hin : offset < count) : FitsInt64 (handle.head.toInt + offset) := by
  have htail := h.tail
  have hhead : -9223372036854775808 ≤ handle.head.toInt := handle.head.le_toInt
  have hhigh : handle.tail.toInt ≤ 9223372036854775807 := handle.tail.toInt_le
  exact ⟨by omega, by omega⟩

/-- Only trimming goes behind the indices of the items. -/
theorem Call.fits_of_takes (h : Describes handle count) {call : Call}
    (htrim : ∀ start stop, call ≠ .trim start stop) {i : Int} (htakes : call.Takes handle i) :
    FitsInt64 i := by
  have hlength := h.length
  have htail := h.tail
  cases call with
  | pop side =>
      cases side with
      | left =>
          obtain ⟨hlong, rfl⟩ := htakes
          exact fits_of_describes h (by omega) (by omega)
      | right =>
          obtain ⟨hlong, rfl⟩ := htakes
          have hlast : handle.tail.toInt - 1 = handle.head.toInt + (count - 2 : Int) := by omega
          exact hlast ▸ fits_of_describes h (by omega) (by omega)
  | get position =>
      obtain ⟨offset, -, hlow, hin, rfl⟩ := htakes
      exact fits_of_describes h hlow (by omega)
  | set position value =>
      obtain ⟨offset, -, hlow, hin, rfl⟩ := htakes
      exact fits_of_describes h hlow (by omega)
  | range start stop =>
      obtain ⟨first, last, hspan, offset, hfirst, hle, rfl⟩ := htakes
      obtain ⟨hlow, -, hin⟩ := span?_eq_some hspan
      exact fits_of_describes h (by omega) (by omega)
  | trim start stop => exact absurd rfl (htrim start stop)
  | _ => exact htakes.elim

/-- What is counted behind the last kept item is out of range if that is the last item
of the list and lies at the last index. -/
theorem overflows_trim_iff_of_describes (h : Describes handle count) {start stop : Int64} :
    (Call.trim start stop).Overflows handle ↔
      ∃ first, handle.tail = Int64.maxValue ∧
        span? start.toInt stop.toInt handle.length.toInt =
          some (first, handle.length.toInt - 1) := by
  have hlength := h.length
  have htail := h.tail
  have hhead : -9223372036854775808 ≤ handle.head.toInt := handle.head.le_toInt
  have hhigh : handle.tail.toInt ≤ 9223372036854775807 := handle.tail.toInt_le
  have hlast : Int64.maxValue.toInt = 9223372036854775807 := rfl
  constructor
  · rintro ⟨i, ⟨first, last, hspan, htakes⟩, hfits⟩
    obtain ⟨hlow, hle, hin⟩ := span?_eq_some hspan
    rcases htakes with rfl | rfl | ⟨-, rfl⟩
    · exact absurd (fits_of_describes h hlow (by omega)) hfits
    · exact absurd (fits_of_describes h (by omega) (by omega)) hfits
    · have hend : handle.head.toInt + last = 9223372036854775807 := by
        by_contra hne
        exact hfits ⟨by omega, by omega⟩
      have hkept : last = handle.length.toInt - 1 := by omega
      refine ⟨first, ?_, hkept ▸ hspan⟩
      rw [← Int64.toInt_inj, hlast]
      omega
  · rintro ⟨first, heq, hspan⟩
    rw [heq, hlast] at htail
    obtain ⟨hlow, hle, hin⟩ := span?_eq_some hspan
    have hfits := fits_of_describes h (show 0 ≤ handle.length.toInt - 1 by omega) (by omega)
    refine ⟨_, ⟨first, _, hspan, Or.inr (Or.inr ⟨hfits, rfl⟩)⟩, ?_⟩
    rintro ⟨-, hbeyond⟩
    omega

/-- A list lies in front of the last index, and only what lies behind the last
index is counted by trimming up to an item there. -/
theorem overflows_iff_of_describes (h : Describes handle count) (call : Call) :
    call.Overflows handle ↔
      ∃ start stop first, call = .trim start stop ∧ handle.tail = Int64.maxValue ∧
        span? start.toInt stop.toInt handle.length.toInt =
          some (first, handle.length.toInt - 1) := by
  constructor
  · intro hover
    by_cases htrim : ∃ start stop, call = .trim start stop
    · obtain ⟨start, stop, rfl⟩ := htrim
      obtain ⟨first, hkept⟩ := (overflows_trim_iff_of_describes h).mp hover
      exact ⟨start, stop, first, rfl, hkept⟩
    · obtain ⟨i, htakes, hfits⟩ := hover
      have hother : ∀ start stop, call ≠ .trim start stop := fun start stop heq =>
        htrim ⟨start, stop, heq⟩
      exact absurd (Call.fits_of_takes h hother htakes) hfits
  · rintro ⟨start, stop, first, rfl, hkept⟩
    exact (overflows_trim_iff_of_describes h).mpr ⟨first, hkept⟩

end Described

end Overflows

/-- The sums of the operations on a list.  Each operation is what it is with all its
sums spelled out, of which those that leave the range break it off.  Whatever becomes
of such sums instead, nothing changes, whichever calls of the engine fail, unless the
metadata that is read overflows; on such metadata a sum does leave the range, once the
operation gets there.  Metadata that describes a list overflows only when an item at
the last index is kept as the last one. -/
theorem sums_in_range (key : String) (call : Call) :
    (∀ env engine, ((call.operation key).perform env).run engine =
      (call.summing breaking key).run engine) ∧
    (∀ sum, Exact sum → ∀ env engine,
      (call.summing sum key).run engine = ((call.operation key).perform env).run engine ∨
        ∃ handle expireAt after, (readHandle key).run engine = (.ok (handle, expireAt), after) ∧
          call.Overflows handle) ∧
    (∀ table handle expireAt, table.HasFrame (Key.ofText key) ⟨.list handle, expireAt⟩ →
      call.Reaches table key handle → call.Overflows handle →
        (∀ env, (((call.operation key).perform env).run (ofTable table)).1 =
          .error (.aborted call.cause)) ∧
        ∀ refusal, ((call.summing (refusing refusal) key).run (ofTable table)).1 =
          .error (refusal call.cause)) ∧
    ∀ handle count, Describes handle count →
      (call.Overflows handle ↔ ∃ start stop first, call = .trim start stop ∧
        handle.tail = Int64.maxValue ∧
          span? start.toInt stop.toInt handle.length.toInt =
            some (first, handle.length.toInt - 1)) := by
  refine ⟨perform_eq_summing key call, fun _ hsum => run_summing_exact hsum key call, ?_,
    fun _ _ h => overflows_iff_of_describes h call⟩
  intro table handle expireAt h hreaches hover
  refine ⟨fun env => ?_, fun refusal => run_summing_refused refusal h hreaches hover⟩
  rw [perform_eq_summing]
  exact run_summing_refused .aborted h hreaches hover

/-- Metadata whose head is the last index although it counts two items is read, and
its second item lies beyond the last index. -/
theorem sums_in_range_beyond :
    let handle : ListHandle := ⟨Int64.maxValue, 0, 2⟩
    let env : Environment := ⟨.ofInt64 0, ⟨60, by decide, by decide⟩, .none⟩
    let table := Table.empty.insert (Key.ofText "k")
      ([0x10, 0xff, 0xff, 0xff, 0xff, 0xff, 0xff, 0xff, 0x7f, 0, 0, 0, 0, 0, 0, 0, 0, 2, 0, 0, 0,
        0, 0, 0, 0, 0, 0, 0, 0, 0, 0, 0, 0] : Bytes)
    Exact checking ∧ Exact wrapping ∧ table.HasFrame (Key.ofText "k") ⟨.list handle, none⟩ ∧
      (Call.get 1).Reaches table "k" handle ∧ (Call.get 1).Overflows handle ∧
      ((((Call.get 1).operation "k").perform env).run (ofTable table)).1 =
        .error (.aborted .sum) ∧
      (((Call.get 1).summing checking "k").run (ofTable table)).1 = .error .overflow := by
  intro handle env table
  have hframe : table.HasFrame (Key.ofText "k") ⟨.list handle, none⟩ := by decide +kernel
  have hover : (Call.get 1).Overflows handle := by
    refine ⟨9223372036854775808, ⟨1, by decide, by decide, by decide, by decide⟩, by decide⟩
  obtain ⟨hbroken, hrefused⟩ :=
    (sums_in_range "k" (.get 1)).2.2.1 table handle none hframe trivial hover
  exact ⟨exact_refusing _, exact_wrapping, hframe, trivial, hover, hbroken env,
    hrefused fun _ => .overflow⟩

/-- The sum of the head and the offset of the second item of such a list leaves the
range, is not reported, and breaks the operation off. -/
theorem index_breaks_off :
    let handle : ListHandle := ⟨Int64.maxValue, 0, 2⟩
    let table := Table.empty.insert (Key.ofText "k")
      ([0x10, 0xff, 0xff, 0xff, 0xff, 0xff, 0xff, 0xff, 0x7f, 0, 0, 0, 0, 0, 0, 0, 0, 2, 0, 0, 0,
        0, 0, 0, 0, 0, 0, 0, 0, 0, 0, 0, 0] : Bytes)
    table.HasFrame (Key.ofText "k") ⟨.list handle, none⟩ ∧
      ¬ FitsInt64 (handle.head.toInt + 1) ∧
      ((get "k" 1).run (ofTable table)).1 = .error (.aborted .sum) ∧
      ((getBy checking "k" 1).run (ofTable table)).1 = .error .overflow := by
  decide +kernel

end StructuredStore.Deque

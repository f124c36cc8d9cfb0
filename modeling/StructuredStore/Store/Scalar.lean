import StructuredStore.Store.Basic

/-!
# Values at keys

Operations on the value at one key.  Replacing a value clears its expiry;
updating one keeps it.
-/

namespace StructuredStore.Store

/-! ## Looking -/

/-- Whether the key holds anything. -/
def contains (key : String) : StoreM Bool := do
  return (← Engine.get (Key.ofText key)).isSome

/-- The kind of what the key holds. -/
def kindOf (key : String) : StoreM Kind := do
  match ← Engine.get (Key.ofText key) with
  | none => throw .notFound
  | some bytes => lift (Frame.peekKind bytes)

/-- The value at the key. -/
def get (key : String) : StoreM Value := do
  return (← readExisting (Key.ofText key)).value

/-- The value at the key, which has to be of the given kind. -/
def getAs (key : String) (kind : Kind) : StoreM Value := do
  return (← readAs (Key.ofText key) kind).value

/-! ## Replacing -/

/-- Replaces the value at the key and clears its expiry.  Structures are
neither written nor replaced. -/
def set (key : String) (value : Value) : StoreM Unit := do
  if value.kind.isStructure then throw (.typeMismatch .null value.kind)
  requireUnreserved key
  match ← Engine.get (Key.ofText key) with
  | none => pure ()
  | some bytes =>
      let found ← lift (Frame.peekKind bytes)
      if found.isStructure then throw (.typeMismatch value.kind found)
  write (Key.ofText key) value none

/-- Removes whatever the key holds, with all items of a structure. -/
def delete (key : String) : StoreM Unit := do
  let frame ← readExisting (Key.ofText key)
  purge key frame.value

/-! ## Updating -/

/-- Replaces the value at the key by what `next` makes of it, and answers with
what `next` answers.  The expiry stays. -/
def update {α : Type} (key : String)
    (next : Option Value → Except StoreError (Value × α)) : StoreM α := do
  let frame ← read (Key.ofText key)
  match next (frame.map (·.value)) with
  | .error e => throw e
  | .ok (value, answer) =>
      write (Key.ofText key) value (frame.bind (·.expireAt))
      return answer

/-- The sum of two 64-bit numbers, if it fits. -/
def checkedAdd (a b : Int64) : Except StoreError Int64 :=
  let sum := a.toInt + b.toInt
  if -9223372036854775808 ≤ sum ∧ sum ≤ 9223372036854775807 then .ok (a + b)
  else .error .overflow

/-- Adds to the number at the key, which counts as zero if the key is absent. -/
def increase (key : String) (amount : Int64) : StoreM Int64 :=
  update key fun
    | none => .ok (.int amount, amount)
    | some (.int i) => (checkedAdd i amount).map fun sum => (.int sum, sum)
    | some other => .error (mismatch .int other)

/-- Adds to the floating-point number at the key.  An absent key takes the
amount as it is; a sum has to be finite. -/
def increaseFloat (key : String) (amount : Binary64) : StoreM Binary64 :=
  update key fun
    | none => .ok (.float amount, amount)
    | some (.float x) =>
        let sum := x.add amount
        if sum.isFinite then .ok (.float sum, sum) else .error .overflow
    | some other => .error (mismatch .float other)

/-- Adds to the decimal at the key, at the larger of the two scales. -/
def increaseDecimal (key : String) (amount : Decimal) : StoreM Decimal :=
  update key fun
    | none => .ok (.decimal amount, amount)
    | some (.decimal d) =>
        match d.add amount with
        | .ok sum => .ok (.decimal sum, sum)
        | .error fault => .error (.ofData fault)
    | some other => .error (mismatch .decimal other)

end StructuredStore.Store

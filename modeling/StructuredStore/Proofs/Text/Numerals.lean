import Mathlib.Tactic.Common
import Mathlib.Tactic.Ring
import StructuredStore.Text.Numeral

/-!
# Which texts are numerals

A run of digits is read as the number it stands for, unless that number is
beyond the limit, and nothing but a run of digits is read.  A signed numeral is
such a run behind a plus sign, a minus sign or no sign at all; an unsigned one
may have a plus sign.

Main results:

- `value_append`, `value_append_zeros`, `value_zeros_append`: numbers of runs of
  digits that are put together.
- `readDigits_eq_ok_iff`, `readSigned_eq_ok_iff`, `readInt64_eq_ok_iff`,
  `readUInt64_eq_ok_iff`: which texts are read, and what they are read as.
-/

namespace StructuredStore.Numeral

/-! ## Runs of digits -/

/-- Reading on from a number shifts it by the digits that follow. -/
theorem foldl_eq_value (cs : List Char) (acc : Nat) :
    cs.foldl (fun n c => n * 10 + digitValue c) acc = acc * 10 ^ cs.length + value cs := by
  induction cs generalizing acc with
  | nil => simp [value]
  | cons c cs ih =>
      have hvalue : value (c :: cs) = digitValue c * 10 ^ cs.length + value cs := by
        rw [value, List.foldl_cons, zero_mul, zero_add]
        exact ih (digitValue c)
      rw [List.foldl_cons, ih, hvalue, List.length_cons]
      ring

/-- The value of two runs of digits: the first is shifted by the second. -/
theorem value_append (xs ys : List Char) :
    value (xs ++ ys) = value xs * 10 ^ ys.length + value ys := by
  rw [value, List.foldl_append, foldl_eq_value ys]
  rfl

/-- The first digit counts for the highest place. -/
theorem value_cons (c : Char) (cs : List Char) :
    value (c :: cs) = digitValue c * 10 ^ cs.length + value cs := by
  have hdigit : value [c] = digitValue c := Nat.zero_add _
  rw [← List.singleton_append, value_append, hdigit]

/-- Zeros stand for zero. -/
theorem value_zeros (n : Nat) : value (List.replicate n '0') = 0 := by
  induction n with
  | zero => rfl
  | succ n ih =>
      have hzero : digitValue '0' = 0 := rfl
      rw [List.replicate_succ, value_cons, ih, hzero, Nat.zero_mul]

/-- Zeros behind a run of digits multiply its number by powers of ten. -/
theorem value_append_zeros (cs : List Char) (n : Nat) :
    value (cs ++ List.replicate n '0') = value cs * 10 ^ n := by
  rw [value_append, value_zeros, List.length_replicate, Nat.add_zero]

/-- Zeros in front of a run of digits change nothing. -/
theorem value_zeros_append (cs : List Char) (n : Nat) :
    value (List.replicate n '0' ++ cs) = value cs := by
  rw [value_append, value_zeros, Nat.zero_mul, Nat.zero_add]

/-! ## Reading digits -/

/-- What is read on top of a number is made of digits. -/
theorem isDigit_of_readMagnitude {limit acc n : Nat} {beyond : Fault} {cs : List Char}
    (h : readMagnitude limit beyond acc cs = .ok n) : ∀ c ∈ cs, c.isDigit = true := by
  induction cs generalizing acc with
  | nil => exact fun _ hc => by cases hc
  | cons first cs ih =>
      rw [readMagnitude] at h
      split at h
      · rename_i hfirst
        split at h
        · exact List.forall_mem_cons.mpr ⟨hfirst, ih h⟩
        · cases h
      · cases h

/-- What is read as a number holds digits only. -/
theorem isDigit_of_readDigits {limit n : Nat} {beyond : Fault} {cs : List Char}
    (h : readDigits limit beyond cs = .ok n) : ∀ c ∈ cs, c.isDigit = true := by
  cases cs with
  | nil => cases h
  | cons first cs => exact isDigit_of_readMagnitude h

/-- Whatever is read stays within the limit. -/
theorem le_of_readMagnitude {limit acc n : Nat} {beyond : Fault} {cs : List Char}
    (hacc : acc ≤ limit) (h : readMagnitude limit beyond acc cs = .ok n) : n ≤ limit := by
  induction cs generalizing acc with
  | nil => cases h; exact hacc
  | cons first cs ih =>
      rw [readMagnitude] at h
      split at h
      · split at h
        · rename_i hstep
          exact ih hstep h
        · cases h
      · cases h

/-- A run of digits on top of the number read so far is read as the number of
all digits together. -/
theorem eq_of_readMagnitude {limit acc n : Nat} {beyond : Fault} {cs : List Char}
    (h : readMagnitude limit beyond acc cs = .ok n) : n = acc * 10 ^ cs.length + value cs := by
  rw [← foldl_eq_value]
  induction cs generalizing acc with
  | nil => cases h; rfl
  | cons first cs ih =>
      rw [readMagnitude] at h
      split at h
      · split at h
        · exact ih h
        · cases h
      · cases h

/-- Exactly the runs of at least one digit whose numbers are within the limit
are read. -/
theorem readDigits_eq_ok_iff {limit n : Nat} {beyond : Fault} {cs : List Char} :
    readDigits limit beyond cs = .ok n ↔
      cs ≠ [] ∧ (∀ c ∈ cs, c.isDigit = true) ∧ n = value cs ∧ n ≤ limit := by
  constructor
  · intro h
    have hdigits := isDigit_of_readDigits h
    cases cs with
    | nil => cases h
    | cons c cs =>
        have hvalue := eq_of_readMagnitude h
        rw [zero_mul, zero_add] at hvalue
        exact ⟨List.cons_ne_nil _ _, hdigits, hvalue, le_of_readMagnitude (Nat.zero_le _) h⟩
  · rintro ⟨hne, hdigits, rfl, hle⟩
    cases cs with
    | nil => exact absurd rfl hne
    | cons c cs => exact readMagnitude_eq_ok hdigits hle

/-! ## Signs -/

/-- A sign in front of a numeral. -/
inductive Sign where
  | plus
  | minus
deriving DecidableEq, Repr

namespace Sign

/-- The sign as it is written, if there is one. -/
def written : Option Sign → List Char
  | none => []
  | some plus => ['+']
  | some minus => ['-']

/-- A number under a sign. -/
def applied {α : Type*} [Neg α] : Option Sign → α → α
  | some minus, number => -number
  | _, number => number

end Sign

/-- Digits are no signs. -/
theorem ne_sign_of_isDigit {c : Char} (h : c.isDigit = true) : c ≠ '-' ∧ c ≠ '+' := by
  constructor <;> rintro rfl <;> revert h <;> decide

variable {low high : Nat}

/-- A numeral without a sign is read like one with a plus sign. -/
theorem readSigned_of_isDigit {c : Char} {cs : List Char} (h : c.isDigit = true) :
    readSigned low high (c :: cs) =
      (readDigits high .tooLarge (c :: cs)).map fun n => (n : Int) := by
  obtain ⟨hminus, hplus⟩ := ne_sign_of_isDigit h
  rw [readSigned.eq_def]
  split
  · rename_i heq; cases heq
  · rename_i heq; cases heq; exact absurd rfl hminus
  · rename_i heq; cases heq; exact absurd rfl hplus
  · rfl

/-- What is read is what becomes of the number of the digits. -/
private theorem signed_eq_ok_iff {f : Int → Int} {x : Except Fault Nat} {i : Int} :
    (Except.map f (do return (← x : Int)) : Except Fault Int) = .ok i ↔
      ∃ n, x = .ok n ∧ f n = i := by
  cases x <;> simp [Except.map, bind, Except.bind, pure, Except.pure]

/-- Exactly an optional sign and a run of at least one digit are read, if the
signed number is within the bounds. -/
theorem readSigned_eq_ok_iff {cs : List Char} {i : Int} :
    readSigned low high cs = .ok i ↔
      ∃ (sign : Option Sign) (ds : List Char), cs = Sign.written sign ++ ds ∧ ds ≠ [] ∧
        (∀ c ∈ ds, c.isDigit = true) ∧ i = Sign.applied sign (value ds : Int) ∧
        -(low : Int) ≤ i ∧ i ≤ high := by
  constructor
  · intro h
    rw [readSigned.eq_def] at h
    split at h
    · cases h
    · obtain ⟨n, hread, rfl⟩ := signed_eq_ok_iff.mp h
      obtain ⟨hne, hdigits, rfl, hle⟩ := readDigits_eq_ok_iff.mp hread
      exact ⟨some .minus, _, rfl, hne, hdigits, rfl, by omega, by omega⟩
    · obtain ⟨n, hread, rfl⟩ := signed_eq_ok_iff.mp h
      obtain ⟨hne, hdigits, rfl, hle⟩ := readDigits_eq_ok_iff.mp hread
      exact ⟨some .plus, _, rfl, hne, hdigits, rfl, by omega, by omega⟩
    · obtain ⟨n, hread, rfl⟩ := signed_eq_ok_iff.mp h
      obtain ⟨hne, hdigits, rfl, hle⟩ := readDigits_eq_ok_iff.mp hread
      exact ⟨none, _, rfl, hne, hdigits, rfl, by omega, by omega⟩
  · rintro ⟨sign, ds, rfl, hne, hdigits, rfl, hlow, hhigh⟩
    have hread : ∀ {limit : Nat} (beyond : Fault), value ds ≤ limit →
        readDigits limit beyond ds = .ok (value ds) := fun _ hle =>
      readDigits_eq_ok_iff.mpr ⟨hne, hdigits, rfl, hle⟩
    match sign with
    | none =>
        obtain ⟨c, ds', rfl⟩ := List.exists_cons_of_ne_nil hne
        have hle : value (c :: ds') ≤ high := Int.ofNat_le.mp hhigh
        exact (readSigned_of_isDigit (hdigits c List.mem_cons_self)).trans
          (signed_eq_ok_iff.mpr ⟨_, hread _ hle, rfl⟩)
    | some .plus => exact signed_eq_ok_iff.mpr ⟨_, hread _ (Int.ofNat_le.mp hhigh), rfl⟩
    | some .minus =>
        have hle : value ds ≤ low := by
          have hneg : -(low : Int) ≤ -(value ds : Int) := hlow
          omega
        exact signed_eq_ok_iff.mpr ⟨_, hread _ hle, rfl⟩

/-- Exactly an optional sign and a run of at least one digit are read as a
64-bit number, if the signed number is one. -/
theorem readInt64_eq_ok_iff {text : String} {c : Int64} :
    readInt64 text = .ok c ↔
      ∃ (sign : Option Sign) (ds : List Char), text.toList = Sign.written sign ++ ds ∧ ds ≠ [] ∧
        (∀ c ∈ ds, c.isDigit = true) ∧ c.toInt = Sign.applied sign (value ds : Int) := by
  have hlow : -9223372036854775808 ≤ c.toInt := c.le_toInt
  have hhigh : c.toInt ≤ 9223372036854775807 := c.toInt_le
  constructor
  · intro h
    rw [readInt64] at h
    cases hread : readSigned 9223372036854775808 9223372036854775807 text.toList with
    | error fault => rw [hread] at h; cases h
    | ok i =>
        rw [hread] at h
        cases h
        obtain ⟨sign, ds, htext, hne, hdigits, hvalue, hle, hge⟩ := readSigned_eq_ok_iff.mp hread
        refine ⟨sign, ds, htext, hne, hdigits, ?_⟩
        rw [Int64.toInt_ofInt_of_le (by omega) (by omega), hvalue]
  · rintro ⟨sign, ds, htext, hne, hdigits, hvalue⟩
    have hread := readSigned_eq_ok_iff.mpr
      ⟨sign, ds, htext, hne, hdigits, hvalue,
        (by omega : -((9223372036854775808 : Nat) : Int) ≤ c.toInt),
        (by omega : c.toInt ≤ ((9223372036854775807 : Nat) : Int))⟩
    rw [readInt64, hread]
    exact congrArg Except.ok (Int64.ofInt_toInt c)

/-! ## Unsigned numerals -/

/-- Exactly a run of at least one digit is read, alone or behind a plus sign, if
its number is within the bound. -/
theorem readUnsigned_eq_ok_iff {cs : List Char} {n : Nat} :
    readUnsigned high cs = .ok n ↔
      ∃ ds : List Char, (cs = ds ∨ cs = '+' :: ds) ∧ ds ≠ [] ∧ (∀ c ∈ ds, c.isDigit = true) ∧
        n = value ds ∧ n ≤ high := by
  have hread : ∀ {ds : List Char}, ds ≠ [] ∧ (∀ c ∈ ds, c.isDigit = true) ∧ n = value ds ∧
      n ≤ high ↔ readDigits high .tooLarge ds = .ok n := readDigits_eq_ok_iff.symm
  simp only [hread]
  rw [readUnsigned.eq_def]
  split
  · simp [readDigits]
  · rename_i ds
    constructor
    · exact fun h => ⟨ds, Or.inr rfl, h⟩
    · rintro ⟨ds', rfl | heq, h⟩
      · -- A sign is no digit.
        exact absurd (isDigit_of_readDigits h '+' List.mem_cons_self) (by decide)
      · cases heq
        exact h
  · rename_i hplus
    constructor
    · exact fun h => ⟨cs, Or.inl rfl, h⟩
    · rintro ⟨ds, rfl | heq, h⟩
      · exact h
      · exact absurd heq (hplus ds)

/-- Exactly a run of at least one digit is read as an unsigned 64-bit number, alone
or behind a plus sign, if its number is one. -/
theorem readUInt64_eq_ok_iff {text : String} {n : UInt64} :
    readUInt64 text = .ok n ↔
      ∃ ds : List Char, (text.toList = ds ∨ text.toList = '+' :: ds) ∧ ds ≠ [] ∧
        (∀ c ∈ ds, c.isDigit = true) ∧ n.toNat = value ds := by
  have hlt : n.toNat < 18446744073709551616 := n.toNat_lt
  have hmap : readUInt64 text = .ok n ↔
      readUnsigned 18446744073709551615 text.toList = .ok n.toNat := by
    unfold readUInt64
    cases hread : readUnsigned 18446744073709551615 text.toList with
    | error fault => simp [Except.map]
    | ok m =>
        obtain ⟨ds, _, _, _, _, hle⟩ := readUnsigned_eq_ok_iff.mp hread
        simp only [Except.map, Except.ok.injEq, ← UInt64.toNat_inj, UInt64.toNat_ofNat']
        omega
  rw [hmap, readUnsigned_eq_ok_iff]
  constructor
  · rintro ⟨ds, htext, hne, hdigits, hvalue, _⟩
    exact ⟨ds, htext, hne, hdigits, hvalue⟩
  · rintro ⟨ds, htext, hne, hdigits, hvalue⟩
    exact ⟨ds, htext, hne, hdigits, hvalue, by omega⟩

end StructuredStore.Numeral

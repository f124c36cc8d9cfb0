import Mathlib.Data.List.Induction
import StructuredStore.Proofs.Key.Selector
import StructuredStore.Proofs.Text.Numerals
import StructuredStore.Proofs.Text.Utf8

/-!
# Keys of expiry buckets

A bucket's key is the stem and a numeral of twenty digits, so buckets lie in
the order of the seconds at which they start, and the number of a bucket is
read back from its key.

Main results:

- `ofText_bucket_lt_iff`, `bucket_injective`: buckets lie in the order of their
  seconds.
- `bucketOrdinal?_bucket`: the number of a bucket is read back.
- `bucketOrdinal?_eq_some_iff`: what stands behind the stem of what is read as the
  key of a bucket: twenty digits, or a plus sign and nineteen.
- `signedBucket_lt_bucket`: such keys with a sign lie in front of all buckets.
-/

namespace StructuredStore

/-! ## Numerals as bytes -/

namespace Numeral

/-- The bytes of a numeral of fixed width. -/
def digitBytes (width n : Nat) : Bytes :=
  (fixedDigits width n).map fun c => UInt8.ofNat c.toNat

theorem digitBytes_succ (width n : Nat) :
    digitBytes (width + 1) n = digitBytes width (n / 10) ++ [UInt8.ofNat (48 + n % 10)] := by
  have hdigit : ∀ d < 10, (Char.ofNat (48 + d)).toNat = 48 + d := by decide
  rw [digitBytes, fixedDigits, List.map_append, List.map_singleton, digitChar,
    hdigit _ (Nat.mod_lt _ (by decide)), digitBytes]

@[simp]
theorem length_digitBytes (width n : Nat) : (digitBytes width n).length = width := by
  rw [digitBytes, List.length_map, length_fixedDigits]

/-- The characters of a numeral are digits. -/
theorem isDigit_of_mem_fixedDigits {width n : Nat} {c : Char}
    (h : c ∈ fixedDigits width n) : c.isDigit = true := by
  induction width generalizing n with
  | zero => cases h
  | succ width ih =>
      rw [fixedDigits] at h
      rcases List.mem_append.mp h with h | h
      · exact ih h
      · rw [List.mem_singleton.mp h]
        exact isDigit_digitChar n

theorem toNat_of_isDigit {c : Char} (h : c.isDigit = true) : 48 ≤ c.toNat ∧ c.toNat ≤ 57 := by
  simp only [Char.isDigit, Bool.and_eq_true, decide_eq_true_eq] at h
  exact ⟨UInt32.le_iff_toNat_le.mp h.1, UInt32.le_iff_toNat_le.mp h.2⟩

/-- A digit is the character of its value. -/
theorem digitChar_digitValue {c : Char} (h : c.isDigit = true) :
    digitValue c < 10 ∧ digitChar (digitValue c) = c := by
  have hdigit := toNat_of_isDigit h
  have hlt : digitValue c < 10 := by
    unfold digitValue
    omega
  have hcode : 48 + digitValue c % 10 = c.toNat := by
    unfold digitValue at hlt ⊢
    omega
  exact ⟨hlt, by rw [digitChar, hcode, Char.ofNat_toNat]⟩

/-- A run of digits is the numeral of its number in its own width. -/
theorem fixedDigits_value {cs : List Char} (h : ∀ c ∈ cs, c.isDigit = true) :
    value cs < 10 ^ cs.length ∧ fixedDigits cs.length (value cs) = cs := by
  induction cs using List.reverseRecOn with
  | nil => exact ⟨Nat.one_pos, rfl⟩
  | append_singleton cs c ih =>
      obtain ⟨hfront, hback⟩ := List.forall_mem_append.mp h
      obtain ⟨hvalue, hdigits⟩ := ih hfront
      obtain ⟨hlt, hchar⟩ := digitChar_digitValue (hback c List.mem_cons_self)
      have hdiv : (value cs * 10 + digitValue c) / 10 = value cs := by omega
      have hlast : digitChar (value cs * 10 + digitValue c) = digitChar (digitValue c) := by
        rw [digitChar, digitChar, Nat.mul_add_mod_self_right]
      rw [value_append_singleton, List.length_append, List.length_singleton, pow_succ]
      refine ⟨by omega, ?_⟩
      rw [fixedDigits, hdiv, hdigits, hlast, hchar]

/-- The bytes of a numeral are those of its text. -/
theorem encode_fixedDigits (width n : Nat) :
    Utf8.encode (String.ofList (fixedDigits width n)) = digitBytes width n := by
  rw [Utf8.encode_eq_flatMap, String.toList_ofList, digitBytes, List.map_eq_flatMap]
  apply List.flatMap_congr
  intro c hc
  have hdigit := toNat_of_isDigit (isDigit_of_mem_fixedDigits hc)
  exact Utf8.utf8EncodeChar_of_lt (by omega)

/-- The bytes of a run of digits are those of the numeral of its number. -/
theorem encode_digits {ds : List Char} (h : ∀ c ∈ ds, c.isDigit = true) :
    Utf8.encode (String.ofList ds) = digitBytes ds.length (value ds) := by
  rw [← encode_fixedDigits, (fixedDigits_value h).2]

/-- The bytes of a numeral are those of digits. -/
theorem toNat_of_mem_digitBytes {width n : Nat} {byte : UInt8}
    (h : byte ∈ digitBytes width n) : 48 ≤ byte.toNat ∧ byte.toNat ≤ 57 := by
  obtain ⟨c, hc, rfl⟩ := List.mem_map.mp h
  have hdigit := toNat_of_isDigit (isDigit_of_mem_fixedDigits hc)
  rw [UInt8.toNat_ofNat']
  omega

/-- Longer byte strings of one length are compared by their fronts first. -/
theorem concat_lt_concat_iff {a b : Bytes} (hlength : a.length = b.length) (x y : UInt8) :
    a ++ [x] < b ++ [y] ↔ a < b ∨ (a = b ∧ x < y) := by
  induction a generalizing b with
  | nil =>
      cases b with
      | nil => simp [List.cons_lt_cons_iff]
      | cons _ b => simp at hlength
  | cons first a ih =>
      cases b with
      | nil => simp at hlength
      | cons second b =>
          have hlength : a.length = b.length := by simpa using hlength
          simp only [List.cons_append, List.cons_lt_cons_iff, ih hlength, List.cons.injEq]
          tauto

/-- Numerals of one width are ordered like the numbers they stand for. -/
theorem digitBytes_lt_iff {width a b : Nat} (ha : a < 10 ^ width) (hb : b < 10 ^ width) :
    digitBytes width a < digitBytes width b ↔ a < b := by
  induction width generalizing a b with
  | zero =>
      have hzero : a = 0 ∧ b = 0 := by simpa using And.intro ha hb
      simp [hzero.1, hzero.2, digitBytes, fixedDigits]
  | succ width ih =>
      rw [pow_succ] at ha hb
      have ha' : a / 10 < 10 ^ width := by omega
      have hb' : b / 10 < 10 ^ width := by omega
      have hlt := ih ha' hb'
      have hgt := ih hb' ha'
      have hlast : UInt8.ofNat (48 + a % 10) < UInt8.ofNat (48 + b % 10) ↔ a % 10 < b % 10 := by
        rw [UInt8.lt_iff_toNat_lt, UInt8.toNat_ofNat', UInt8.toNat_ofNat']
        omega
      rw [digitBytes_succ, digitBytes_succ, concat_lt_concat_iff (by simp), hlt, hlast]
      constructor
      · rintro (h | ⟨heq, h⟩)
        · omega
        · have hnot : ¬ a / 10 < b / 10 := fun hc =>
            List.lt_irrefl (digitBytes width (b / 10)) (by simpa [heq] using hlt.mpr hc)
          have hnot' : ¬ b / 10 < a / 10 := fun hc =>
            List.lt_irrefl (digitBytes width (b / 10)) (by simpa [heq] using hgt.mpr hc)
          omega
      · intro h
        rcases Nat.lt_or_ge (a / 10) (b / 10) with hhead | hhead
        · exact Or.inl hhead
        · have heq : a / 10 = b / 10 := by omega
          exact Or.inr ⟨by rw [heq], by omega⟩

/-- A sign in front of a text is a byte in front of its bytes. -/
theorem encode_plus (cs : List Char) :
    Utf8.encode (String.ofList ('+' :: cs)) = 0x2b :: Utf8.encode (String.ofList cs) := by
  rw [← List.singleton_append, String.ofList_append, Utf8.encode_append]
  rfl

/-- A numeral within the range of 64 bits is read back, with a sign or without. -/
theorem readUInt64_of_fixedDigits {text : String} {width n : Nat} (hpos : 0 < width)
    (hn : n < 18446744073709551616) (hwidth : n < 10 ^ width)
    (htext : text.toList = fixedDigits width n ∨ text.toList = '+' :: fixedDigits width n) :
    readUInt64 text = .ok (UInt64.ofNat n) := by
  refine readUInt64_eq_ok_iff.mpr ⟨fixedDigits width n, htext, ?_,
    fun c hc => isDigit_of_mem_fixedDigits hc, ?_⟩
  · exact List.ne_nil_of_length_pos (by rwa [length_fixedDigits])
  · rw [UInt64.toNat_ofNat', Nat.mod_eq_of_lt hn, value_fixedDigits]
    exact (Nat.mod_eq_of_lt hwidth).symm

/-- A text with a colon is no numeral. -/
theorem colon_notMem_of_readUInt64 {text : String} {n : UInt64}
    (h : readUInt64 text = .ok n) : ':' ∉ text.toList := by
  obtain ⟨ds, htext, _, hdigits, _⟩ := readUInt64_eq_ok_iff.mp h
  have hds : ':' ∉ ds := fun hmem => absurd (hdigits ':' hmem) (by decide)
  rcases htext with htext | htext
  · rwa [htext]
  · rw [htext]
    exact List.not_mem_cons_of_ne_of_not_mem (by decide) hds

end Numeral

namespace Key

/-! ## Bucket keys -/

/-- The name in front of the first colon of every bucket's key. -/
def bucketName : Bytes :=
  [0x5f, 0x5f, 0x65, 0x78, 0x70, 0x69, 0x72, 0x79, 0x5f, 0x5f]

theorem encode_bucketStem : Utf8.encode bucketStem = bucketName ++ [0x3a] := by
  rfl

/-- The number of a bucket has at most twenty digits. -/
theorem bucketOrdinal_lt (seconds : Int64) :
    bucketOrdinal seconds < 18446744073709551616 := by
  have hlow : -9223372036854775808 ≤ seconds.toInt := seconds.le_toInt
  have hhigh : seconds.toInt ≤ 9223372036854775807 := seconds.toInt_le
  unfold bucketOrdinal signOffset
  omega

/-- Buckets are numbered in the order of their seconds. -/
theorem bucketOrdinal_lt_iff (a b : Int64) :
    bucketOrdinal a < bucketOrdinal b ↔ a.toInt < b.toInt := by
  have ha : -9223372036854775808 ≤ a.toInt := a.le_toInt
  have hb : -9223372036854775808 ≤ b.toInt := b.le_toInt
  unfold bucketOrdinal signOffset
  omega

/-- A bucket's key is the name, a colon and twenty digits. -/
theorem ofText_bucket (seconds : Int64) :
    ofText (bucket seconds) =
      bucketName ++ 0x3a :: Numeral.digitBytes bucketDigits (bucketOrdinal seconds) := by
  rw [ofText, bucket, Utf8.encode_append, encode_bucketStem, Numeral.encode_fixedDigits,
    List.append_assoc, List.singleton_append]

/-- Buckets lie in the order of their seconds. -/
theorem ofText_bucket_lt_iff (a b : Int64) :
    ofText (bucket a) < ofText (bucket b) ↔ a.toInt < b.toInt := by
  have hpow : (10 : Nat) ^ bucketDigits = 100000000000000000000 := by norm_num [bucketDigits]
  have ha := bucketOrdinal_lt a
  have hb := bucketOrdinal_lt b
  rw [ofText_bucket, ofText_bucket, append_lt_append_iff, List.cons_lt_cons_iff,
    Numeral.digitBytes_lt_iff (by omega) (by omega), bucketOrdinal_lt_iff]
  simp [Std.lt_irrefl]

theorem bucket_injective {a b : Int64} (h : bucket a = bucket b) : a = b := by
  have hab := ofText_bucket_lt_iff a b
  have hba := ofText_bucket_lt_iff b a
  rw [h] at hab hba
  have hnot : ¬ a.toInt < b.toInt := fun hlt => List.lt_irrefl _ (hab.mpr hlt)
  have hnot' : ¬ b.toInt < a.toInt := fun hlt => List.lt_irrefl _ (hba.mpr hlt)
  exact Int64.toInt_inj.mp (by omega)

/-- The number of a bucket is read back from its key. -/
theorem bucketOrdinal?_bucket (seconds : Int64) :
    bucketOrdinal? (ofText (bucket seconds)) = some (bucketOrdinal seconds) := by
  have hpow : (10 : Nat) ^ bucketDigits = 100000000000000000000 := by norm_num [bucketDigits]
  have hlt := bucketOrdinal_lt seconds
  have hdrop : (ofText (bucket seconds)).drop (Utf8.encode bucketStem).length
      = Utf8.encode (String.ofList (Numeral.fixedDigits bucketDigits (bucketOrdinal seconds))) := by
    rw [ofText, bucket, Utf8.encode_append, List.drop_left]
  unfold bucketOrdinal?
  simp only [hdrop, Utf8.decode?_encode]
  rw [Numeral.readUInt64_of_fixedDigits (by decide) hlt (by omega) (Or.inl String.toList_ofList),
    Numeral.encode_fixedDigits, Numeral.length_digitBytes, if_pos rfl]
  simp only [UInt64.toNat_ofNat', Nat.mod_eq_of_lt hlt]

/-- What is read as the number of a bucket is a numeral of twenty bytes behind the
stem. -/
theorem bucketOrdinal?_eq_some_iff_text {rest : Bytes} {ordinal : Nat} :
    bucketOrdinal? (Utf8.encode bucketStem ++ rest) = some ordinal ↔
      rest.length = bucketDigits ∧ ∃ text n, Utf8.encode text = rest ∧
        Numeral.readUInt64 text = .ok n ∧ n.toNat = ordinal := by
  simp only [bucketOrdinal?, List.drop_left]
  constructor
  · intro h
    split at h
    · rename_i hlength
      refine ⟨hlength, ?_⟩
      split at h
      · cases h
      · rename_i text htext
        split at h
        · rename_i n hn
          exact ⟨text, n, Utf8.encode_of_decode? htext, hn, Option.some.inj h⟩
        · cases h
    · cases h
  · rintro ⟨hlength, text, n, rfl, hread, rfl⟩
    simp only [hlength, if_true, Utf8.decode?_encode, hread]

/-- What is read as the number of a bucket has twenty bytes behind the stem, and
no colon among them. -/
theorem numeral_of_bucketOrdinal? {rest : Bytes} {ordinal : Nat}
    (h : bucketOrdinal? (Utf8.encode bucketStem ++ rest) = some ordinal) :
    rest.length = bucketDigits ∧ 0x3a ∉ rest := by
  obtain ⟨hlength, text, n, rfl, hread, _⟩ := bucketOrdinal?_eq_some_iff_text.mp h
  exact ⟨hlength, fun hmem => Numeral.colon_notMem_of_readUInt64 hread
    ((Utf8.ascii_mem_encode_iff (by decide) text).mp hmem)⟩

/-! ## What is read as a bucket -/

/-- Every number of 64 bits is that of a bucket. -/
theorem exists_bucketOrdinal_eq {ordinal : Nat} (h : ordinal < 18446744073709551616) :
    ∃ seconds, bucketOrdinal seconds = ordinal := by
  refine ⟨Int64.ofInt (ordinal - signOffset), ?_⟩
  have hoffset : signOffset = 9223372036854775808 := rfl
  rw [bucketOrdinal, Int64.toInt_ofInt_of_le (by omega) (by omega)]
  omega

/-- The key that is read as that of a bucket though it is none: a plus sign stands
in the place of the first digit. -/
def signedBucket (ordinal : Nat) : Bytes :=
  Utf8.encode bucketStem ++ 0x2b :: Numeral.digitBytes 19 ordinal

theorem bucketOrdinal?_digits {ordinal : Nat} (h : ordinal < 18446744073709551616) :
    bucketOrdinal? (Utf8.encode bucketStem ++ Numeral.digitBytes bucketDigits ordinal) =
      some ordinal := by
  obtain ⟨seconds, rfl⟩ := exists_bucketOrdinal_eq h
  rw [encode_bucketStem, List.append_assoc, List.singleton_append, ← ofText_bucket]
  exact bucketOrdinal?_bucket seconds

theorem bucketOrdinal?_signedBucket {ordinal : Nat} (h : ordinal < 10 ^ 19) :
    bucketOrdinal? (signedBucket ordinal) = some ordinal := by
  have hsmall : ordinal < 18446744073709551616 := by
    have hnineteen : (10 : Nat) ^ 19 = 10000000000000000000 := by norm_num
    omega
  rw [signedBucket, bucketOrdinal?_eq_some_iff_text]
  refine ⟨by rw [List.length_cons, Numeral.length_digitBytes, bucketDigits],
    String.ofList ('+' :: Numeral.fixedDigits 19 ordinal), UInt64.ofNat ordinal, ?_, ?_, ?_⟩
  · rw [Numeral.encode_plus, Numeral.encode_fixedDigits]
  · exact Numeral.readUInt64_of_fixedDigits (by decide) hsmall h (Or.inr String.toList_ofList)
  · rw [UInt64.toNat_ofNat', Nat.mod_eq_of_lt hsmall]

/-- What is read as the number of a bucket behind the stem: its twenty digits, or
nineteen digits behind a plus sign. -/
theorem bucketOrdinal?_eq_some_iff {rest : Bytes} {ordinal : Nat} :
    bucketOrdinal? (Utf8.encode bucketStem ++ rest) = some ordinal ↔
      (ordinal < 18446744073709551616 ∧ rest = Numeral.digitBytes bucketDigits ordinal) ∨
      (ordinal < 10 ^ 19 ∧ rest = 0x2b :: Numeral.digitBytes 19 ordinal) := by
  constructor
  · intro h
    obtain ⟨hlength, text, n, rfl, hread, rfl⟩ := bucketOrdinal?_eq_some_iff_text.mp h
    obtain ⟨ds, htext, _, hds, hvalue⟩ := Numeral.readUInt64_eq_ok_iff.mp hread
    rw [hvalue]
    rw [← String.ofList_toList (s := text)] at hlength ⊢
    rcases htext with htext | htext
    · rw [htext, Numeral.encode_digits hds, Numeral.length_digitBytes] at hlength
      rw [htext, Numeral.encode_digits hds, hlength, ← hvalue]
      exact Or.inl ⟨n.toNat_lt, rfl⟩
    · rw [htext, Numeral.encode_plus, Numeral.encode_digits hds, List.length_cons,
        Numeral.length_digitBytes] at hlength
      have hnineteen : ds.length = 19 := Nat.succ.inj hlength
      have hlt := (Numeral.fixedDigits_value hds).1
      rw [htext, Numeral.encode_plus, Numeral.encode_digits hds, hnineteen]
      rw [hnineteen] at hlt
      exact Or.inr ⟨hlt, rfl⟩
  · rintro (⟨hlt, hrest⟩ | ⟨hlt, hrest⟩)
    · rw [hrest, bucketOrdinal?_digits hlt]
    · rw [hrest, ← signedBucket, bucketOrdinal?_signedBucket hlt]

/-- What is read as the key of a bucket is that of one, or has the sign. -/
theorem eq_bucket_or_signed {physical : Bytes} {ordinal : Nat}
    (hstem : Utf8.encode bucketStem <+: physical) (h : bucketOrdinal? physical = some ordinal) :
    (∃ seconds, bucketOrdinal seconds = ordinal ∧ physical = ofText (bucket seconds)) ∨
      (ordinal < 10 ^ 19 ∧ physical = signedBucket ordinal) := by
  obtain ⟨rest, rfl⟩ := hstem
  obtain ⟨hlt, hrest⟩ | ⟨hlt, hrest⟩ := bucketOrdinal?_eq_some_iff.mp h
  · obtain ⟨seconds, hseconds⟩ := exists_bucketOrdinal_eq hlt
    refine Or.inl ⟨seconds, hseconds, ?_⟩
    rw [hrest, ofText_bucket, hseconds, encode_bucketStem, List.append_assoc,
      List.singleton_append]
  · exact Or.inr ⟨hlt, by rw [hrest, signedBucket]⟩

/-- A sign lies in front of all digits. -/
theorem signedBucket_lt_bucket (ordinal : Nat) (seconds : Int64) :
    signedBucket ordinal < ofText (bucket seconds) := by
  rw [signedBucket, ofText_bucket, encode_bucketStem, List.append_assoc, List.singleton_append,
    append_lt_append_iff, List.cons_lt_cons_iff]
  refine Or.inr ⟨rfl, ?_⟩
  cases hdigits : Numeral.digitBytes bucketDigits (bucketOrdinal seconds) with
  | nil =>
      have hlength := Numeral.length_digitBytes bucketDigits (bucketOrdinal seconds)
      rw [hdigits] at hlength
      cases hlength
  | cons first rest =>
      have hfirst : first ∈ Numeral.digitBytes bucketDigits (bucketOrdinal seconds) := by
        rw [hdigits]
        exact List.mem_cons_self
      have hbyte := (Numeral.toNat_of_mem_digitBytes hfirst).1
      have hsign : (0x2b : UInt8).toNat = 43 := rfl
      exact List.cons_lt_cons_iff.mpr (Or.inl (UInt8.lt_iff_toNat_lt.mpr (by omega)))

end Key
end StructuredStore

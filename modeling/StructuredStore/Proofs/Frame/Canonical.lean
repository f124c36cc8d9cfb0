import StructuredStore.Proofs.Frame.RoundTrip

/-!
# Canonical frames

A field reader is canonical if all that it takes off a payload is the field
that its answer is written as.  Every reader of a payload is, with two
exceptions: a big integer may have zeros in front, and the second of a time of
day is looked at modulo `2 ^ 32` only.  A time of day whose count of
nanoseconds goes beyond that is therefore read as another one, and written back
as that one.

Main results:

- `canonical_value`: the readers of all other kinds are canonical.
- `encode_time_of_decode`: a time of day is written back exactly if its count
  does not wrap.
- `encode_eq_iff_not_wraps`: among the byte strings that are read as one frame,
  the written form is the only one that does not wrap.
-/

namespace StructuredStore

namespace FieldReader

variable {α β : Type}

/-- Whether all that the reader takes off any payload is the written form of
what it answers. -/
def Canonical (reader : FieldReader α) (write : α → Except DataError Bytes) : Prop :=
  ∀ payload left a, reader.run payload = .ok (a, left) →
    ∃ field, write a = .ok field ∧ payload.rest = field ++ left.rest

namespace Canonical

/-- A reader that takes nothing writes back nothing. -/
theorem pure {a : α} {write : α → Except DataError Bytes} (h : write a = .ok []) :
    Canonical (pure a) write := by
  intro payload left found hrun
  cases hrun
  exact ⟨[], h, rfl⟩

/-- A renamed answer is written as the answer was. -/
theorem map {reader : FieldReader α} {write : α → Except DataError Bytes}
    (h : Canonical reader write) {f : α → β} {writeAs : β → Except DataError Bytes}
    (hwrite : ∀ a, writeAs (f a) = write a) : Canonical (f <$> reader) writeAs := by
  intro payload left b hrun
  obtain ⟨a, rfl, ha⟩ := run_map_eq_ok hrun
  obtain ⟨field, hfield, hrest⟩ := h payload left a ha
  exact ⟨field, (hwrite a).trans hfield, hrest⟩

/-- The first of two readers takes the field that its answer is written as. -/
theorem of_bind {first : FieldReader α} {next : α → FieldReader β}
    {write : α → Except DataError Bytes} (h : Canonical first write) {payload left : Payload}
    {b : β} (hrun : (first >>= next).run payload = .ok (b, left)) :
    ∃ a field between, write a = .ok field ∧ payload.rest = field ++ between.rest ∧
      (next a).run between = .ok (b, left) := by
  obtain ⟨a, between, hfirst, hnext⟩ := run_bind_eq_ok hrun
  obtain ⟨field, hfield, hrest⟩ := h payload between a hfirst
  exact ⟨a, field, between, hfield, hrest, hnext⟩

end Canonical

/-! ## Fixed-width fields -/

/-- Bytes that are taken are those of the field. -/
theorem canonical_take (count : Nat) : Canonical (take count) .ok := by
  intro payload left field hrun
  refine ⟨field, rfl, ?_⟩
  simp only [take, StateT.run, Bytes.take?] at hrun
  split at hrun
  · rename_i hsplit
    split at hsplit
    · cases hsplit
      cases hrun
      simp
    · cases hsplit
  · cases hrun

/-- A number that is read has just these bytes. -/
theorem canonical_number (width : Nat) :
    Canonical (number width) (fun n => .ok (Bytes.littleEndian width n)) := by
  intro payload left n hrun
  obtain ⟨field, rfl, htake⟩ := run_map_eq_ok hrun
  obtain ⟨_, hfield, hrest⟩ := canonical_take width payload left field htake
  cases hfield
  refine ⟨field, ?_, hrest⟩
  simp only [← length_of_take htake, Bytes.littleEndian_ofLittleEndian]

/-- A number under another name is written as the number, if the name keeps all
numbers of the width apart. -/
theorem canonical_number_map {width : Nat} {f : Nat → α} {write : α → Except DataError Bytes}
    (hwrite : ∀ n < 256 ^ width, write (f n) = .ok (Bytes.littleEndian width n)) :
    Canonical (f <$> number width) write := by
  intro payload left a hrun
  obtain ⟨n, rfl, hn⟩ := run_map_eq_ok hrun
  obtain ⟨field, hfield, hrest⟩ := canonical_number width payload left n hn
  exact ⟨field, (hwrite n (lt_of_number hn)).trans hfield, hrest⟩

/-- So has a byte, -/
theorem canonical_byte : Canonical byte (fun b => .ok [b]) := by
  apply canonical_number_map
  intro n hn
  simp [Bytes.littleEndian]

/-- an unsigned number, -/
theorem canonical_uint64 : Canonical uint64 (fun n => .ok (Frame.uint64Field n)) := by
  apply canonical_number_map
  intro n hn
  rw [Frame.uint64Field, UInt64.toNat_ofNat_of_lt' hn]

/-- a signed one, -/
theorem canonical_int64 : Canonical int64 (fun i => .ok (Frame.int64Field i)) := by
  apply canonical_number_map
  intro n hn
  rw [Frame.int64Field, UInt64.toUInt64_toInt64, UInt64.toNat_ofNat_of_lt' hn]

/-- and one of 32 bits. -/
theorem canonical_int32 :
    Canonical int32 (fun i => .ok (Bytes.littleEndian 4 i.toUInt32.toNat)) := by
  apply canonical_number_map
  intro n hn
  rw [UInt32.toUInt32_toInt32, UInt32.toNat_ofNat_of_lt' hn]

/-! ## Fields of variable length -/

/-- Bytes with their length are written as they were read. -/
theorem canonical_prefixed : Canonical prefixed Frame.prefixedField := by
  intro payload left bytes hrun
  obtain ⟨count, between, hcount, htake⟩ := run_bind_eq_ok hrun
  obtain ⟨_, hlength, hfront⟩ := canonical_number 4 payload between count hcount
  obtain ⟨_, hbytes, hback⟩ := canonical_take count between left bytes htake
  have hfits : bytes.length < 4294967296 := by
    rw [length_of_take htake]
    exact lt_of_number hcount
  cases hlength
  cases hbytes
  refine ⟨_, prefixedField_eq_ok_iff.mpr ⟨hfits, rfl⟩, ?_⟩
  rw [hfront, hback, length_of_take htake, List.append_assoc]

/-- So is a text. -/
theorem canonical_text : Canonical text Frame.textField := by
  intro payload left s hrun
  obtain ⟨bytes, field, between, hfield, hrest, hrun⟩ := canonical_prefixed.of_bind hrun
  split at hrun
  · rename_i s' hdecode
    cases hrun
    refine ⟨field, ?_, hrest⟩
    rw [Frame.textField, Utf8.encode_of_decode? hdecode, hfield]
  · cases hrun

/-! ## Composite values -/

/-- A truth value has one byte only. -/
theorem canonical_bool : Canonical bool (fun b => .ok [if b then 1 else 0]) := by
  intro payload left b hrun
  obtain ⟨byte, field, between, hfield, hrest, hrun⟩ := canonical_byte.of_bind hrun
  simp only at hrun
  split at hrun
  · cases hrun
  · rename_i hguard
    cases hrun
    cases hfield
    refine ⟨_, ?_, hrest⟩
    have hbyte : byte = 0 ∨ byte = 1 := by
      rw [UInt8.lt_iff_toNat_lt] at hguard
      have hone : (1 : UInt8).toNat = 1 := rfl
      rcases Nat.lt_or_ge byte.toNat 1 with h | h
      · exact Or.inl (UInt8.toNat_inj.mp (by simpa using h))
      · exact Or.inr (UInt8.toNat_inj.mp (by omega))
    rcases hbyte with rfl | rfl <;> rfl

/-- An identifier is read byte by byte. -/
theorem canonical_uuid : Canonical uuid (fun id => .ok id.bytes) := by
  intro payload left id hrun
  obtain ⟨bytes, field, between, hfield, hrest, hrun⟩ := (canonical_take 16).of_bind hrun
  split at hrun
  · cases hrun
    exact ⟨field, hfield, hrest⟩
  · cases hrun

/-- A decimal is its coefficient and its scale. -/
theorem canonical_decimal :
    Canonical decimal fun d =>
      .ok (Frame.int64Field d.coefficient ++ Bytes.littleEndian 4 d.scale.toUInt32.toNat) := by
  intro payload left d hrun
  obtain ⟨coefficient, _, between, ⟨⟩, hfront, hrun⟩ := canonical_int64.of_bind hrun
  obtain ⟨scale, _, after, ⟨⟩, hback, hrun⟩ := canonical_int32.of_bind hrun
  cases hrun
  refine ⟨_, rfl, ?_⟩
  rw [hfront, hback, List.append_assoc]

/-- The metadata of a list is its three numbers. -/
theorem canonical_listHandle :
    Canonical listHandle fun handle =>
      .ok (Frame.int64Field handle.head ++ Frame.int64Field handle.tail ++
        Frame.int64Field handle.length) := by
  intro payload left handle hrun
  obtain ⟨head, _, _, ⟨⟩, hhead, hrun⟩ := canonical_int64.of_bind hrun
  obtain ⟨tail, _, _, ⟨⟩, htail, hrun⟩ := canonical_int64.of_bind hrun
  obtain ⟨length, _, _, ⟨⟩, hlength, hrun⟩ := canonical_int64.of_bind hrun
  simp only at hrun
  split at hrun
  · cases hrun
  · cases hrun
    refine ⟨_, rfl, ?_⟩
    rw [hhead, htail, hlength, List.append_assoc, List.append_assoc]

/-- The metadata of a filter is its count, its slots and its salt. -/
theorem canonical_bloomHandle :
    Canonical bloomHandle fun handle => Frame.payload (.bloom handle) := by
  intro payload left handle hrun
  obtain ⟨slots, _, _, ⟨⟩, hslots, hrun⟩ := canonical_byte.of_bind hrun
  obtain ⟨count, _, _, ⟨⟩, hcount, hrun⟩ := canonical_uint64.of_bind hrun
  obtain ⟨salt, field, _, hfield, hsalt, hrun⟩ := canonical_text.of_bind hrun
  cases hrun
  refine ⟨slots :: (Frame.uint64Field count ++ field), ?_, ?_⟩
  · simp [Frame.payload, hfield, pure_eq_ok]
  · simp [hslots, hcount, hsalt]

/-- A text with two byte strings behind it is written in that order. -/
theorem canonical_sealed {f : String → Bytes → Bytes → α} {write : α → Except DataError Bytes}
    (hwrite : ∀ algorithm body salt, write (f algorithm body salt) = do
      return (← Frame.textField algorithm) ++ (← Frame.prefixedField body) ++
        (← Frame.prefixedField salt)) :
    Canonical (do return f (← text) (← prefixed) (← prefixed)) write := by
  intro payload left record hrun
  obtain ⟨algorithm, first, _, hfirst, halgorithm, hrun⟩ := canonical_text.of_bind hrun
  obtain ⟨body, second, _, hsecond, hbody, hrun⟩ := canonical_prefixed.of_bind hrun
  obtain ⟨salt, third, _, hthird, hsalt, hrun⟩ := canonical_prefixed.of_bind hrun
  cases hrun
  refine ⟨first ++ second ++ third, ?_, ?_⟩
  · simp [hwrite, hfirst, hsecond, hthird, pure_eq_ok]
  · simp [halgorithm, hbody, hsalt]

/-- A hashed password is written as it was read. -/
theorem canonical_passwordRecord :
    Canonical passwordRecord fun record => Frame.payload (.password record) :=
  canonical_sealed fun _ _ _ => rfl

/-- So is an encrypted value, -/
theorem canonical_encryptedRecord :
    Canonical encryptedRecord fun record => Frame.payload (.encrypted record) :=
  canonical_sealed fun _ _ _ => rfl

/-- and a part of a secret. -/
theorem canonical_secretShare :
    Canonical secretShare fun part => Frame.payload (.share part) := by
  intro payload left part hrun
  obtain ⟨index, _, _, ⟨⟩, hindex, hrun⟩ := canonical_byte.of_bind hrun
  obtain ⟨threshold, _, _, ⟨⟩, hthreshold, hrun⟩ := canonical_byte.of_bind hrun
  obtain ⟨share, field, _, hfield, hshare, hrun⟩ := canonical_prefixed.of_bind hrun
  cases hrun
  refine ⟨index :: threshold :: field, ?_, ?_⟩
  · simp [Frame.payload, hfield, pure_eq_ok]
  · simp [hindex, hthreshold, hshare]

/-! ## Payloads -/

/-- The payload of a value that is neither a big integer nor a time of day is
the written form of that value. -/
theorem canonical_value {kind : Kind} (hbig : kind ≠ .bigInt) (htime : kind ≠ .time) :
    Canonical (value kind) Frame.payload := by
  cases kind with
  | null => exact .pure rfl
  | int => exact canonical_int64.map fun _ => rfl
  | float => exact canonical_uint64.map fun _ => rfl
  | decimal => exact canonical_decimal.map fun _ => rfl
  | bigInt => exact absurd rfl hbig
  | text => exact canonical_text.map fun _ => rfl
  | bool => exact canonical_bool.map fun _ => rfl
  | timestamp =>
      refine canonical_int64.map fun count => ?_
      simp [Frame.payload, Frame.instantField]
  | time => exact absurd rfl htime
  | duration =>
      refine canonical_int64.map fun count => ?_
      simp [Frame.payload]
  | binary | bitmap => exact canonical_prefixed.map fun _ => rfl
  | uuid => exact canonical_uuid.map fun _ => rfl
  | list => exact canonical_listHandle.map fun _ => rfl
  | map | set | series => exact canonical_uint64.map fun _ => rfl
  | bloom => exact canonical_bloomHandle.map fun _ => rfl
  | password => exact canonical_passwordRecord.map fun _ => rfl
  | encrypted => exact canonical_encryptedRecord.map fun _ => rfl
  | share => exact canonical_secretShare.map fun _ => rfl

/-- A time of day is read from any count that is not negative, and is what is
left of the count modulo `2 ^ 32` seconds. -/
theorem timeOfDay_run_eq_ok {payload left : Payload} {t : TimeOfDay}
    (h : timeOfDay.run payload = .ok (t, left)) :
    ∃ count : Int64, payload.rest = Frame.int64Field count ++ left.rest ∧ 0 ≤ count.toInt ∧
      (t.nanoseconds : Int) = count.toInt % 4294967296000000000 := by
  obtain ⟨count, _, between, ⟨⟩, hrest, hrun⟩ := canonical_int64.of_bind h
  refine ⟨count, ?_⟩
  simp only at hrun
  split at hrun
  · cases hrun
  · rename_i hnonneg
    split at hrun
    · rename_i t' ht
      cases hrun
      unfold TimeOfDay.ofParts? at ht
      split at ht
      · cases ht
        refine ⟨hrest, by omega, ?_⟩
        simp only [TimeOfDay.nanoseconds]
        omega
      · cases ht
    · cases hrun

end FieldReader

namespace Frame

/-! ## Counts that wrap -/

/-- Whether the bytes are those of a time of day whose count goes beyond
`2 ^ 32` seconds. -/
def Wraps (bytes : Bytes) : Prop :=
  peekKind bytes = .ok .time ∧
    4294967296000000000 ≤ Bytes.ofLittleEndian ((bytes.drop 1).take 8)

instance (bytes : Bytes) : Decidable (Wraps bytes) :=
  inferInstanceAs (Decidable (_ ∧ _))

/-- The bytes of a number that is not negative stand for that number. -/
theorem ofLittleEndian_int64Field_of_nonneg {count : Int64} (h : 0 ≤ count.toInt) :
    (Bytes.ofLittleEndian (int64Field count) : Int) = count.toInt := by
  have hsmall : 2 * count.toBitVec.toNat < 2 ^ 64 := BitVec.toInt_pos_iff.mp h
  have hcount : count.toInt = count.toBitVec.toNat := BitVec.toInt_eq_toNat_of_lt hsmall
  rw [ofLittleEndian_int64Field, hcount]
  rfl

/-- Different numbers have different bytes. -/
theorem int64Field_inj {i j : Int64} : int64Field i = int64Field j ↔ i = j := by
  constructor
  · intro h
    have hnumber := congrArg Bytes.ofLittleEndian h
    rw [ofLittleEndian_int64Field, ofLittleEndian_int64Field] at hnumber
    have hword := congrArg UInt64.toInt64 (UInt64.toNat_inj.mp hnumber)
    simpa using hword
  · rintro rfl
    rfl

/-! ## Written forms -/

/-- The last eight bytes of a frame are the written form of the expiry that they
stand for. -/
theorem expiryField_decodeExpiry {field : Bytes} (hlength : field.length = 8) :
    expiryField (decodeExpiry field) = .ok field := by
  have hlt := Bytes.ofLittleEndian_lt field
  rw [hlength] at hlt
  obtain ⟨count, hcount⟩ : ∃ count : Int64, field = int64Field count := by
    refine ⟨(UInt64.ofNat (Bytes.ofLittleEndian field)).toInt64, ?_⟩
    rw [int64Field, UInt64.toUInt64_toInt64, UInt64.toNat_ofNat_of_lt' hlt, ← hlength,
      Bytes.littleEndian_ofLittleEndian]
  rw [hcount, decodeExpiry_int64Field]
  by_cases hzero : count = 0
  · rw [if_pos hzero, hzero]
    rfl
  · rw [if_neg hzero]
    simp [expiryField, instantField]

/-- A byte string that shows a kind starts with its tag and has an expiry behind
it. -/
theorem peekKind_eq_ok {bytes : Bytes} {kind : Kind} (h : peekKind bytes = .ok kind) :
    ∃ rest, bytes = kind.tag :: rest ∧ 8 ≤ rest.length := by
  unfold peekKind at h
  split at h
  · cases h
  · rename_i tag rest
    split at h
    · cases h
    · rename_i hlong
      simp only [List.length_cons, overhead] at hlong
      split at h
      · rename_i kind' htag
        cases h
        exact ⟨rest, by rw [Kind.tag_of_ofTag? htag], by omega⟩
      · cases h

/-- A frame that can be read is a tag, what the reader of its kind takes to the
end, and the written form of its expiry. -/
theorem split_of_decode {bytes : Bytes} {frame : Frame} (h : decode bytes = .ok frame) :
    ∃ body expiry left, bytes = frame.value.kind.tag :: (body ++ expiry) ∧
      expiryField frame.expireAt = .ok expiry ∧ left.rest = [] ∧
      (FieldReader.value frame.value.kind).run ⟨frame.value.kind, 0, body⟩ =
        .ok (frame.value, left) := by
  have hpeek := peekKind_of_decode h
  obtain ⟨kind, hkind, hpayload, hexpiry⟩ := decode_eq_ok h
  rw [hpeek] at hkind
  cases hkind
  obtain ⟨left, hrun, hleft⟩ := decodePayload_eq_ok hpayload
  obtain ⟨rest, hbytes, hlong⟩ := peekKind_eq_ok hpeek
  have hbody : bytes.length - overhead = rest.length - 8 := by
    simp [hbytes, overhead]
  have hlength : (rest.drop (rest.length - 8)).length = 8 := by
    rw [List.length_drop]
    omega
  rw [hbody] at hrun
  refine ⟨rest.take (rest.length - 8), rest.drop (rest.length - 8), left, ?_, ?_, hleft, ?_⟩
  · rw [List.take_append_drop, hbytes]
  · rw [hexpiry, storedExpiry, hbody, hbytes]
    exact expiryField_decodeExpiry hlength
  · simpa [hbytes] using hrun

/-- A frame that can be read and holds no time of day was written as what it is
read from. -/
theorem encode_of_decode {bytes : Bytes} {frame : Frame} (h : decode bytes = .ok frame)
    (hbig : frame.value.kind ≠ .bigInt) (htime : frame.value.kind ≠ .time) :
    frame.encode = .ok bytes := by
  obtain ⟨body, expiry, left, rfl, hexpiry, hleft, hrun⟩ := split_of_decode h
  obtain ⟨field, hfield, hrest⟩ := FieldReader.canonical_value hbig htime _ _ _ hrun
  have hbody : body = field := by simpa [hleft] using hrest
  subst hbody
  exact encode_eq_ok_iff.mpr ⟨body, expiry, hfield, hexpiry, rfl⟩

/-- A time of day is written as what it is read from, exactly if that does not
wrap. -/
theorem encode_time_of_decode {bytes : Bytes} {t : TimeOfDay} {expireAt : Option Instant}
    (h : decode bytes = .ok ⟨.time t, expireAt⟩) :
    ∃ written, encode ⟨.time t, expireAt⟩ = .ok written ∧ (bytes = written ↔ ¬ Wraps bytes) := by
  have hpeek : peekKind bytes = .ok .time := peekKind_of_decode h
  obtain ⟨body, expiry, left, hbytes, hexpiry, hleft, hrun⟩ := split_of_decode h
  obtain ⟨t', heq, hrun⟩ := FieldReader.run_map_eq_ok hrun
  cases heq
  obtain ⟨count, hbody, hnonneg, hvalue⟩ := FieldReader.timeOfDay_run_eq_ok hrun
  have hbody : body = int64Field count := by simpa [hleft] using hbody
  subst hbody
  have hencode := encode_eq_ok_iff.mpr
    ⟨_, expiry, (rfl : payload (.time t) = .ok (int64Field (Int64.ofNat t.nanoseconds))), hexpiry,
      rfl⟩
  refine ⟨_, hencode, ?_⟩
  have hfield : (bytes.drop 1).take 8 = int64Field count := by
    simp [hbytes, ← length_int64Field count]
  have hwraps : Wraps bytes ↔ 4294967296000000000 ≤ count.toInt := by
    have hcount := ofLittleEndian_int64Field_of_nonneg hnonneg
    simp only [Wraps, hpeek, hfield, true_and]
    omega
  have hwritten : (Int64.ofNat t.nanoseconds).toInt = t.nanoseconds :=
    TimeOfDay.toInt_nanoseconds t
  have hsame : count = Int64.ofNat t.nanoseconds ↔ count.toInt = t.nanoseconds := by
    rw [← Int64.toInt_inj, hwritten]
  have hbound := count.toInt_le
  rw [hwraps, hbytes, List.cons_inj_right, List.append_cancel_right_eq, int64Field_inj, hsame,
    hvalue]
  omega

/-! ## The canonical form -/

/-- Of the byte strings that are read as one frame, which is no big integer, one
is what the frame is written as, and it is the only one that does not wrap. -/
theorem encode_eq_iff_not_wraps {bytes : Bytes} {frame : Frame} (h : decode bytes = .ok frame)
    (hbig : frame.value.kind ≠ .bigInt) :
    ∃ written, frame.encode = .ok written ∧ decode written = .ok frame ∧
      ∀ other, decode other = .ok frame → (other = written ↔ ¬ Wraps other) := by
  have hform : ∀ other, decode other = .ok frame →
      ∃ written, frame.encode = .ok written ∧ (other = written ↔ ¬ Wraps other) := by
    intro other hother
    obtain ⟨v, expireAt⟩ := frame
    by_cases htime : v.kind = .time
    · cases v <;> cases htime
      exact encode_time_of_decode hother
    · refine ⟨other, encode_of_decode hother hbig htime, ?_⟩
      simp [Wraps, peekKind_of_decode hother, htime]
  obtain ⟨written, hwritten, _⟩ := hform bytes h
  have hdecode := decode_encode hwritten (storable_of_decode h)
  rw [expireAt_of_decode h, asStored_storedExpiry, ← expireAt_of_decode h] at hdecode
  refine ⟨written, hwritten, hdecode, ?_⟩
  intro other hother
  obtain ⟨found, hfound, hiff⟩ := hform other hother
  rw [hwritten] at hfound
  cases hfound
  exact hiff

/-- The second after the last one of a day that 32 bits can count is read as
midnight, and midnight is written as the start of the count. -/
theorem encode_eq_iff_not_wraps_midnight :
    decode (0x08 :: Bytes.littleEndian 16 4294967296000000000) =
        .ok ⟨.time ⟨0, 0, by decide, by decide⟩, none⟩ ∧
      Wraps (0x08 :: Bytes.littleEndian 16 4294967296000000000) ∧
      ∃ written, encode ⟨.time ⟨0, 0, by decide, by decide⟩, none⟩ = .ok written ∧
        written ≠ 0x08 :: Bytes.littleEndian 16 4294967296000000000 := by
  have hdecode : decode (0x08 :: Bytes.littleEndian 16 4294967296000000000) =
      .ok ⟨.time ⟨0, 0, by decide, by decide⟩, none⟩ := by
    decide +kernel
  have hwraps : Wraps (0x08 :: Bytes.littleEndian 16 4294967296000000000) := by
    decide +kernel
  obtain ⟨written, hwritten, _, hform⟩ := encode_eq_iff_not_wraps hdecode (by decide)
  refine ⟨hdecode, hwraps, written, hwritten, ?_⟩
  intro heq
  exact (hform _ hdecode).mp heq.symm hwraps

/-- Reading is not canonical: two byte strings are read as midnight, one of
them from a count outside of a day. -/
theorem decode_not_canonical :
    ¬ ∀ bytes frame, decode bytes = .ok frame → frame.value.kind ≠ .bigInt →
      frame.encode = .ok bytes := by
  intro hcanonical
  have hdecode : decode (0x08 :: Bytes.littleEndian 16 4294967296000000000) =
      .ok ⟨.time ⟨0, 0, by decide, by decide⟩, none⟩ := by
    decide +kernel
  have hencode := hcanonical _ _ hdecode (by decide)
  revert hencode
  decide +kernel

end Frame
end StructuredStore

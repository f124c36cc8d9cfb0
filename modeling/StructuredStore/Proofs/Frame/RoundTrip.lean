import StructuredStore.Proofs.Bytes.Order
import StructuredStore.Proofs.Frame.Fields

/-!
# Reading back what was written

A written frame shows its kind and its expiry whatever its value is, and its
value too unless the value lies outside what a frame can tell: a leap second,
and the metadata of an empty list that is not in its empty form.  Such values
are not storable; every value that is read from a frame is.

Main results:

- `decode_encode`: a frame with a storable value is read back, its expiry as a
  count of nanoseconds in which zero stands for none.
- `peekKind_encode`, `storedExpiry_encode`: kind and expiry of any written
  frame.
- `storable_of_decode`, `expireAt_of_decode`, `peekKind_of_decode`: what is
  known of a frame that could be read.
-/

namespace StructuredStore

/-! ## Storable values -/

/-- Whether a frame can tell the value from all others. -/
def Value.Storable : Value → Prop
  | .timestamp instant => instant.nanos < 1000000000
  | .time t => t.nanos < 1000000000
  | .list handle => handle = .empty ∨ 0 < handle.length.toInt
  | _ => True

instance (value : Value) : Decidable value.Storable := by
  cases value <;> unfold Value.Storable <;> infer_instance

/-! ## Times -/

/-- An instant outside leap seconds is the instant of its count. -/
theorem Instant.ofInt64_of_toInt64? {instant : Instant} {count : Int64}
    (h : instant.toInt64? = some count) (hnanos : instant.nanos < 1000000000) :
    Instant.ofInt64 count = instant := by
  have hcount := Instant.toInt_of_toInt64? h
  rw [Instant.nanoseconds] at hcount
  have hseconds : count.toInt / 1000000000 = instant.seconds := by omega
  have hrest : (count.toInt % 1000000000).toNat = instant.nanos := by omega
  cases instant
  subst hseconds
  subst hrest
  rfl

/-- The instant of a count lies in no leap second. -/
theorem Instant.nanos_ofInt64_lt (count : Int64) :
    (Instant.ofInt64 count).nanos < 1000000000 := by
  simp only [Instant.ofInt64]
  omega

/-- The count of a time of day fits 64 bits. -/
theorem TimeOfDay.toInt_nanoseconds (t : TimeOfDay) :
    (Int64.ofNat t.nanoseconds).toInt = t.seconds * 1000000000 + t.nanos := by
  have hseconds := t.seconds_lt
  have hnanos := t.nanos_lt
  have hcount : t.nanoseconds = t.seconds * 1000000000 + t.nanos := rfl
  rw [Int64.toInt_ofNat_of_lt (by omega), hcount]
  rfl

namespace FieldReader

/-- A timestamp outside a leap second is read back from its field. -/
theorem reads_timestamp {instant : Instant} {field : Bytes}
    (h : Frame.instantField instant = .ok field) (hnanos : instant.nanos < 1000000000) :
    Reads ((fun count => Value.timestamp (.ofInt64 count)) <$> int64) field
      (.timestamp instant) := by
  unfold Frame.instantField at h
  split at h
  · rename_i count hcount
    cases h
    have hread := (reads_int64 count).map fun count => Value.timestamp (.ofInt64 count)
    rwa [Instant.ofInt64_of_toInt64? hcount hnanos] at hread
  · cases h

/-- A time of day outside a leap second is read back from its field. -/
theorem reads_timeOfDay (t : TimeOfDay) (hnanos : t.nanos < 1000000000) :
    Reads timeOfDay (Frame.int64Field (Int64.ofNat t.nanoseconds)) t := by
  have hseconds := t.seconds_lt
  have hcount := TimeOfDay.toInt_nanoseconds t
  have hsecond : ((Int64.ofNat t.nanoseconds).toInt / 1000000000).toNat % 4294967296
      = t.seconds := by
    omega
  have hrest : ((Int64.ofNat t.nanoseconds).toInt % 1000000000).toNat = t.nanos := by
    omega
  have hparts : TimeOfDay.ofParts? t.seconds t.nanos = some t := by
    unfold TimeOfDay.ofParts?
    rw [dif_pos ⟨t.seconds_lt, t.nanos_lt⟩]
  intro kind position rest
  rw [timeOfDay, StateT.run_bind, reads_int64 _ kind position rest, ok_bind]
  simp only [hsecond, hrest, hparts]
  rw [if_neg (by omega)]
  rfl

/-- A duration that fits a signed count of nanoseconds is read back from its field. -/
theorem reads_duration {d : Span} {count : Int64} (h : d.toInt64? = some count) :
    Reads ((fun count => Value.duration (.ofInt64 count)) <$> int64) (Frame.int64Field count)
      (.duration d) := by
  have hread := (reads_int64 count).map fun count => Value.duration (.ofInt64 count)
  rwa [Span.ofInt64_of_toInt64? h] at hread

/-! ## Composite values -/

/-- The sixteen bytes of an identifier are read back. -/
theorem reads_uuid (id : Uuid) : Reads uuid id.bytes id := by
  intro kind position rest
  have hrun := reads_take id.bytes kind position rest
  rw [id.length_bytes] at hrun
  rw [uuid, StateT.run_bind, hrun, ok_bind]
  simp only [id.length_bytes, dite_true]
  rfl

/-- A decimal is read back from its coefficient and scale. -/
theorem reads_decimal (d : Decimal) :
    Reads decimal
      (Frame.int64Field d.coefficient ++ Bytes.littleEndian 4 d.scale.toUInt32.toNat) d := by
  have hread : Reads decimal (_ ++ (_ ++ [])) d :=
    (reads_int64 d.coefficient).bind ((reads_int32 d.scale).bind (Reads.pure d))
  rwa [List.append_nil] at hread

/-- A list handle is read back, unless it counts no items and is not the empty handle.
-/
theorem reads_listHandle {handle : ListHandle}
    (h : handle = .empty ∨ 0 < handle.length.toInt) :
    Reads listHandle
      (Frame.int64Field handle.head ++ Frame.int64Field handle.tail ++
        Frame.int64Field handle.length) handle := by
  have hguard : ¬ (handle.length < 0 ∨
      (handle.length = 0 ∧ (handle.head ≠ 0 ∨ handle.tail ≠ -1))) := by
    rcases h with rfl | hpos
    · decide
    · have hzero : (0 : Int64).toInt = 0 := rfl
      rintro (hneg | ⟨hlength, _⟩)
      · rw [Int64.lt_iff_toInt_lt, hzero] at hneg
        omega
      · rw [hlength, hzero] at hpos
        omega
  have hlast : Reads (do
      if handle.length < 0 ∨
          (handle.length = 0 ∧ (handle.head ≠ 0 ∨ handle.tail ≠ -1)) then
        refuse (.listHandle handle.head handle.tail handle.length)
      return ⟨handle.head, handle.tail, handle.length⟩) [] handle := by
    rw [if_neg hguard]
    exact Reads.pure handle
  have hread : Reads listHandle (_ ++ (_ ++ (_ ++ []))) handle :=
    (reads_int64 handle.head).bind
      ((reads_int64 handle.tail).bind ((reads_int64 handle.length).bind hlast))
  rwa [List.append_nil, ← List.append_assoc] at hread

/-- A filter's handle is read back. -/
theorem reads_bloomHandle {handle : BloomHandle} {salt : Bytes}
    (h : Frame.textField handle.salt = .ok salt) :
    Reads bloomHandle (handle.slots :: (Frame.uint64Field handle.count ++ salt)) handle := by
  have hread : Reads bloomHandle (_ ++ (_ ++ (_ ++ []))) handle :=
    (reads_byte handle.slots).bind
      ((reads_uint64 handle.count).bind ((reads_text h).bind (Reads.pure handle)))
  rwa [List.append_nil] at hread

/-- A password record is read back from its three prefixed fields. -/
theorem reads_passwordRecord {record : PasswordRecord} {algorithm hash salt : Bytes}
    (halgorithm : Frame.textField record.algorithm = .ok algorithm)
    (hhash : Frame.prefixedField record.hash = .ok hash)
    (hsalt : Frame.prefixedField record.salt = .ok salt) :
    Reads passwordRecord (algorithm ++ hash ++ salt) record := by
  have hread : Reads passwordRecord (_ ++ (_ ++ (_ ++ []))) record :=
    (reads_text halgorithm).bind
      ((reads_prefixed hhash).bind ((reads_prefixed hsalt).bind (Reads.pure record)))
  rwa [List.append_nil, ← List.append_assoc] at hread

/-- An encrypted record is read back from its three prefixed fields. -/
theorem reads_encryptedRecord {record : EncryptedRecord} {algorithm ciphertext nonce : Bytes}
    (halgorithm : Frame.textField record.algorithm = .ok algorithm)
    (hciphertext : Frame.prefixedField record.ciphertext = .ok ciphertext)
    (hnonce : Frame.prefixedField record.nonce = .ok nonce) :
    Reads encryptedRecord (algorithm ++ ciphertext ++ nonce) record := by
  have hread : Reads encryptedRecord (_ ++ (_ ++ (_ ++ []))) record :=
    (reads_text halgorithm).bind
      ((reads_prefixed hciphertext).bind ((reads_prefixed hnonce).bind (Reads.pure record)))
  rwa [List.append_nil, ← List.append_assoc] at hread

/-- A secret share is read back: two bytes, then the share itself. -/
theorem reads_secretShare {part : SecretShare} {share : Bytes}
    (h : Frame.prefixedField part.share = .ok share) :
    Reads secretShare (part.index :: part.threshold :: share) part := by
  have hread : Reads secretShare (_ ++ (_ ++ (_ ++ []))) part :=
    (reads_byte part.index).bind
      ((reads_byte part.threshold).bind ((reads_prefixed h).bind (Reads.pure part)))
  rwa [List.append_nil] at hread

/-! ## Payloads -/

/-- The payload of a storable value is read back by the reader of its kind. -/
theorem readsAll_payload {v : Value} {body : Bytes} (h : Frame.payload v = .ok body)
    (hstorable : v.Storable) : ReadsAll (value v.kind) body v := by
  cases v with
  | null =>
      cases h
      exact (Reads.pure _).all
  | int i =>
      cases h
      exact ((reads_int64 i).map Value.int).all
  | float x =>
      cases h
      exact ((reads_uint64 x.bits).map fun bits => Value.float ⟨bits⟩).all
  | decimal d =>
      cases h
      exact ((reads_decimal d).map Value.decimal).all
  | bigInt i =>
      cases h
      exact (readsAll_bigInt i).map Value.bigInt
  | text s => exact ((reads_text h).map Value.text).all
  | bool b =>
      cases h
      exact ((reads_bool b).map Value.bool).all
  | timestamp instant => exact (reads_timestamp h hstorable).all
  | time t =>
      cases h
      exact ((reads_timeOfDay t hstorable).map Value.time).all
  | duration d =>
      simp only [Frame.payload] at h
      split at h
      · rename_i count hcount
        cases h
        exact (reads_duration hcount).all
      · cases h
  | binary bytes => exact ((reads_prefixed h).map Value.binary).all
  | uuid id =>
      cases h
      exact ((reads_uuid id).map Value.uuid).all
  | list handle =>
      cases h
      exact ((reads_listHandle hstorable).map Value.list).all
  | map count =>
      cases h
      exact ((reads_uint64 count).map Value.map).all
  | set count =>
      cases h
      exact ((reads_uint64 count).map Value.set).all
  | series count =>
      cases h
      exact ((reads_uint64 count).map Value.series).all
  | bloom handle =>
      obtain ⟨salt, hsalt, hbody⟩ := bind_eq_ok_iff.mp h
      cases hbody
      exact ((reads_bloomHandle hsalt).map Value.bloom).all
  | password record =>
      obtain ⟨algorithm, halgorithm, h⟩ := bind_eq_ok_iff.mp h
      obtain ⟨hash, hhash, h⟩ := bind_eq_ok_iff.mp h
      obtain ⟨salt, hsalt, hbody⟩ := bind_eq_ok_iff.mp h
      cases hbody
      exact ((reads_passwordRecord halgorithm hhash hsalt).map Value.password).all
  | encrypted record =>
      obtain ⟨algorithm, halgorithm, h⟩ := bind_eq_ok_iff.mp h
      obtain ⟨ciphertext, hciphertext, h⟩ := bind_eq_ok_iff.mp h
      obtain ⟨nonce, hnonce, hbody⟩ := bind_eq_ok_iff.mp h
      cases hbody
      exact ((reads_encryptedRecord halgorithm hciphertext hnonce).map Value.encrypted).all
  | share part =>
      obtain ⟨bytes, hbytes, hbody⟩ := bind_eq_ok_iff.mp h
      cases hbody
      exact ((reads_secretShare hbytes).map Value.share).all
  | bitmap bytes => exact ((reads_prefixed h).map Value.bitmap).all

end FieldReader

namespace Frame

/-! ## The parts of a frame -/

/-- The expiry that the last bytes of a frame stand for. -/
def storedExpiry (bytes : Bytes) : Option Instant :=
  decodeExpiry (bytes.drop (bytes.length - overhead + 1))

/-- An expiry as it is read back: a count of nanoseconds, of which zero means
none. -/
def asStored (expireAt : Option Instant) : Option Instant :=
  match expireAt.bind Instant.toInt64? with
  | none => none
  | some count => if count = 0 then none else some (.ofInt64 count)

@[simp]
theorem asStored_none : asStored none = none := rfl

theorem length_int64Field (i : Int64) : (int64Field i).length = 8 :=
  Bytes.length_littleEndian 8 _

/-- Reading the eight bytes of a field gives the count as an unsigned number. -/
theorem ofLittleEndian_int64Field (count : Int64) :
    Bytes.ofLittleEndian (int64Field count) = count.toUInt64.toNat := by
  rw [int64Field, Bytes.ofLittleEndian_littleEndian]
  exact Nat.mod_eq_of_lt count.toUInt64.toNat_lt

/-- The count zero is read as no expiry at all. -/
theorem decodeExpiry_int64Field (count : Int64) :
    decodeExpiry (int64Field count) = if count = 0 then none else some (.ofInt64 count) := by
  unfold decodeExpiry
  rw [ofLittleEndian_int64Field, UInt64.ofNat_toNat, Int64.toInt64_toUInt64]

/-- The written form of an expiry has eight bytes and says what is stored. -/
theorem expiryField_eq_ok {expireAt : Option Instant} {field : Bytes}
    (h : expiryField expireAt = .ok field) :
    field.length = 8 ∧ decodeExpiry field = asStored expireAt := by
  cases expireAt with
  | none =>
      cases h
      exact ⟨length_int64Field 0, by rw [decodeExpiry_int64Field]; rfl⟩
  | some instant =>
      simp only [expiryField, instantField] at h
      split at h
      · rename_i count hcount
        cases h
        refine ⟨length_int64Field count, ?_⟩
        rw [decodeExpiry_int64Field, asStored, Option.bind_some, hcount]
      · cases h

/-- What is read from a frame is stored as it is. -/
theorem asStored_storedExpiry (bytes : Bytes) :
    asStored (storedExpiry bytes) = storedExpiry bytes := by
  unfold storedExpiry decodeExpiry
  generalize (UInt64.ofNat _).toInt64 = count
  by_cases hcount : count = 0
  · simp [hcount]
  · simp [hcount, asStored]

/-- A frame is its tag, the payload and the expiry. -/
theorem encode_eq_ok_iff {v : Value} {expireAt : Option Instant} {bytes : Bytes} :
    encode ⟨v, expireAt⟩ = .ok bytes ↔
      ∃ body expiry, payload v = .ok body ∧ expiryField expireAt = .ok expiry ∧
        bytes = v.kind.tag :: (body ++ expiry) := by
  simp only [encode, bind_eq_ok_iff]
  constructor
  · rintro ⟨body, hbody, expiry, hexpiry, hbytes⟩
    cases hbytes
    exact ⟨body, expiry, hbody, hexpiry, rfl⟩
  · rintro ⟨body, expiry, hbody, hexpiry, rfl⟩
    exact ⟨body, hbody, expiry, hexpiry, rfl⟩

/-- The payload of a frame lies between its tag and the last eight bytes. -/
theorem split_frame (tag : UInt8) (body : Bytes) {expiry : Bytes} (h : expiry.length = 8) :
    (tag :: (body ++ expiry)).length = body.length + overhead ∧
      ((tag :: (body ++ expiry)).drop 1).take body.length = body ∧
      (tag :: (body ++ expiry)).drop (body.length + 1) = expiry := by
  refine ⟨?_, ?_, ?_⟩
  · simp [h, overhead]
  · simp
  · simp

/-! ## Reading a written frame -/

/-- A written frame shows the kind of its value. -/
theorem peekKind_encode {v : Value} {expireAt : Option Instant} {bytes : Bytes}
    (h : encode ⟨v, expireAt⟩ = .ok bytes) : peekKind bytes = .ok v.kind := by
  obtain ⟨body, expiry, _, hexpiry, rfl⟩ := encode_eq_ok_iff.mp h
  have hlength := (split_frame v.kind.tag body (expiryField_eq_ok hexpiry).1).1
  simp only [peekKind]
  rw [if_neg (by rw [hlength]; omega), Kind.ofTag?_tag]

/-- A written frame shows its expiry. -/
theorem storedExpiry_encode {v : Value} {expireAt : Option Instant} {bytes : Bytes}
    (h : encode ⟨v, expireAt⟩ = .ok bytes) : storedExpiry bytes = asStored expireAt := by
  obtain ⟨body, expiry, _, hexpiry, rfl⟩ := encode_eq_ok_iff.mp h
  obtain ⟨hlength, hdecode⟩ := expiryField_eq_ok hexpiry
  obtain ⟨htotal, _, hdrop⟩ := split_frame v.kind.tag body hlength
  rw [storedExpiry, htotal, Nat.add_sub_cancel, hdrop, hdecode]

/-- An expiry and what is stored of it have the same written form. -/
theorem encode_asStored {v : Value} {expireAt : Option Instant} {bytes : Bytes}
    (h : encode ⟨v, expireAt⟩ = .ok bytes) : encode ⟨v, asStored expireAt⟩ = .ok bytes := by
  rcases encode_eq_ok_iff.mp h with ⟨body, expiry, hbody, hexpiry, rfl⟩
  refine encode_eq_ok_iff.mpr ⟨body, expiry, hbody, ?_, rfl⟩
  cases expireAt with
  | none => exact hexpiry
  | some instant =>
      simp only [expiryField, instantField] at hexpiry
      cases hcount : instant.toInt64? with
      | none => simp [hcount] at hexpiry
      | some count =>
          simp only [hcount] at hexpiry
          simp only [asStored, Option.bind_some, hcount]
          by_cases hzero : count = 0
          · rw [if_pos hzero]
            rwa [hzero] at hexpiry
          · rw [if_neg hzero]
            simpa [expiryField, instantField] using hexpiry

/-- A written frame with a storable value is read back. -/
theorem decode_encode {v : Value} {expireAt : Option Instant} {bytes : Bytes}
    (h : encode ⟨v, expireAt⟩ = .ok bytes) (hstorable : v.Storable) :
    decode bytes = .ok ⟨v, asStored expireAt⟩ := by
  have hkind := peekKind_encode h
  have hexpireAt := storedExpiry_encode h
  obtain ⟨body, expiry, hbody, hexpiry, rfl⟩ := encode_eq_ok_iff.mp h
  obtain ⟨htotal, htake, _⟩ := split_frame v.kind.tag body (expiryField_eq_ok hexpiry).1
  have hpayload : decodePayload v.kind body = .ok v := by
    rw [decodePayload, FieldReader.readsAll_payload hbody hstorable v.kind 0]
    rfl
  rw [storedExpiry, htotal, Nat.add_sub_cancel] at hexpireAt
  rw [decode, hkind]
  simp only [decodeKind]
  rw [htotal, Nat.add_sub_cancel, htake, hpayload, hexpireAt]

/-! ## What a frame that can be read says -/

/-- The parts of a frame that can be read. -/
theorem decode_eq_ok {bytes : Bytes} {frame : Frame} (h : decode bytes = .ok frame) :
    ∃ kind, peekKind bytes = .ok kind ∧
      decodePayload kind ((bytes.drop 1).take (bytes.length - overhead)) = .ok frame.value ∧
      frame.expireAt = storedExpiry bytes := by
  unfold decode at h
  split at h
  · cases h
  · rename_i kind hkind
    simp only [decodeKind] at h
    split at h
    · cases h
    · rename_i v hv
      cases h
      exact ⟨kind, hkind, hv, rfl⟩

/-- The expiry of a frame that can be read is what its last bytes say. -/
theorem expireAt_of_decode {bytes : Bytes} {frame : Frame} (h : decode bytes = .ok frame) :
    frame.expireAt = storedExpiry bytes := by
  obtain ⟨_, _, _, hexpireAt⟩ := decode_eq_ok h
  exact hexpireAt

/-- The value that a payload stands for, as the answer of a reader that comes to
its end. -/
theorem decodePayload_eq_ok {kind : Kind} {bytes : Bytes} {v : Value}
    (h : decodePayload kind bytes = .ok v) :
    ∃ left, (FieldReader.value kind).run ⟨kind, 0, bytes⟩ = .ok (v, left) ∧ left.rest = [] := by
  unfold decodePayload at h
  split at h
  · cases h
  · rename_i v' left hrun
    split at h
    · rename_i hrest
      cases h
      exact ⟨left, hrun, List.isEmpty_iff.mp hrest⟩
    · cases h

end Frame

namespace FieldReader

/-- What a mapped reader answers is the image of what the reader answers. -/
theorem run_map_eq_ok {α β : Type} {f : α → β} {reader : FieldReader α}
    {payload left : Payload} {b : β} (h : (f <$> reader).run payload = .ok (b, left)) :
    ∃ a, f a = b ∧ reader.run payload = .ok (a, left) := by
  rw [StateT.run_map] at h
  cases hrun : reader.run payload with
  | error e => rw [hrun] at h; cases h
  | ok result =>
      rw [hrun] at h
      cases h
      exact ⟨result.1, rfl, rfl⟩

/-- A sequence of readers succeeds if each of them does. -/
theorem run_bind_eq_ok {α β : Type} {first : FieldReader α} {next : α → FieldReader β}
    {payload left : Payload} {b : β} (h : (first >>= next).run payload = .ok (b, left)) :
    ∃ a between, first.run payload = .ok (a, between) ∧ (next a).run between = .ok (b, left) := by
  rw [StateT.run_bind] at h
  obtain ⟨⟨a, between⟩, hfirst, hnext⟩ := bind_eq_ok_iff.mp h
  exact ⟨a, between, hfirst, hnext⟩

/-- A time of day that is read lies in no leap second. -/
theorem nanos_lt_of_timeOfDay {payload left : Payload} {t : TimeOfDay}
    (h : timeOfDay.run payload = .ok (t, left)) : t.nanos < 1000000000 := by
  obtain ⟨count, between, _, h⟩ := run_bind_eq_ok h
  simp only at h
  split at h
  · cases h
  · split at h
    · rename_i t' ht
      cases h
      unfold TimeOfDay.ofParts? at ht
      split at ht
      · cases ht
        simp only
        omega
      · cases ht
    · cases h

/-- The metadata of a list that is read is that of a list. -/
theorem storable_of_listHandle {payload left : Payload} {handle : ListHandle}
    (h : listHandle.run payload = .ok (handle, left)) :
    handle = .empty ∨ 0 < handle.length.toInt := by
  obtain ⟨head, _, _, h⟩ := run_bind_eq_ok h
  obtain ⟨tail, _, _, h⟩ := run_bind_eq_ok h
  obtain ⟨length, _, _, h⟩ := run_bind_eq_ok h
  simp only at h
  split at h
  · cases h
  · rename_i hguard
    cases h
    have hzero : (0 : Int64).toInt = 0 := rfl
    simp only [not_or, not_and, ne_eq, not_not, Int64.lt_iff_toInt_lt, hzero] at hguard
    by_cases hlength : length = 0
    · obtain ⟨hhead, htail⟩ := hguard.2 hlength
      left
      rw [hhead, htail, hlength]
      rfl
    · right
      have hne : length.toInt ≠ 0 := fun heq => hlength (Int64.toInt_inj.mp (heq.trans hzero.symm))
      simp only
      omega

/-- The metadata of a list is read as what was written, if at all. -/
theorem eq_of_listHandle {kind : Kind} {position : Nat} {rest : Bytes} {left : Payload}
    {handle found : ListHandle}
    (h : listHandle.run ⟨kind, position, Frame.int64Field handle.head ++
      (Frame.int64Field handle.tail ++ (Frame.int64Field handle.length ++ rest))⟩ =
        .ok (found, left)) : found = handle := by
  obtain ⟨head, _, hhead, h⟩ := run_bind_eq_ok h
  rw [reads_int64 handle.head kind position _] at hhead
  cases hhead
  obtain ⟨tail, _, htail, h⟩ := run_bind_eq_ok h
  rw [reads_int64 handle.tail kind _ _] at htail
  cases htail
  obtain ⟨length, _, hlength, h⟩ := run_bind_eq_ok h
  rw [reads_int64 handle.length kind _ _] at hlength
  cases hlength
  simp only at h
  split at h
  · cases h
  · cases h
    rfl

/-- What a reader takes has the length it asked for. -/
theorem length_of_take {count : Nat} {payload left : Payload} {front : Bytes}
    (h : (take count).run payload = .ok (front, left)) : front.length = count := by
  simp only [take, StateT.run, Bytes.take?] at h
  split at h
  · rename_i hfront
    split at hfront
    · rename_i hcount
      cases hfront
      cases h
      rw [List.length_take, Nat.min_eq_left hcount]
    · cases hfront
  · cases h

/-- A number that is read fits its width. -/
theorem lt_of_number {width n : Nat} {payload left : Payload}
    (h : (number width).run payload = .ok (n, left)) : n < 256 ^ width := by
  obtain ⟨front, rfl, hfront⟩ := run_map_eq_ok h
  have hlt := Bytes.ofLittleEndian_lt front
  rwa [length_of_take hfront] at hlt

/-- A text that is read has a length that fits its field. -/
theorem length_of_text {payload left : Payload} {s : String}
    (h : text.run payload = .ok (s, left)) : (Utf8.encode s).length < 4294967296 := by
  obtain ⟨bytes, _, hbytes, h⟩ := run_bind_eq_ok h
  obtain ⟨count, _, hcount, htake⟩ := run_bind_eq_ok hbytes
  have hlt := lt_of_number hcount
  split at h
  · rename_i text_ htext
    cases h
    rw [Utf8.encode_of_decode? htext, length_of_take htake]
    exact hlt
  · cases h

/-- A value that is read is of the kind of its reader, and storable. -/
theorem storable_of_value {kind : Kind} {payload left : Payload} {v : Value}
    (h : (value kind).run payload = .ok (v, left)) : v.kind = kind ∧ v.Storable := by
  cases kind with
  | null => cases h; exact ⟨rfl, trivial⟩
  | timestamp =>
      obtain ⟨count, rfl, _⟩ := run_map_eq_ok h
      exact ⟨rfl, Instant.nanos_ofInt64_lt count⟩
  | time =>
      obtain ⟨t, rfl, ht⟩ := run_map_eq_ok h
      exact ⟨rfl, nanos_lt_of_timeOfDay ht⟩
  | list =>
      obtain ⟨handle, rfl, hhandle⟩ := run_map_eq_ok h
      exact ⟨rfl, storable_of_listHandle hhandle⟩
  | _ =>
      obtain ⟨_, rfl, _⟩ := run_map_eq_ok h
      exact ⟨rfl, trivial⟩

end FieldReader

namespace Frame

/-- A frame that can be read shows the kind of its value. -/
theorem peekKind_of_decode {bytes : Bytes} {frame : Frame} (h : decode bytes = .ok frame) :
    peekKind bytes = .ok frame.value.kind := by
  obtain ⟨kind, hkind, hpayload, _⟩ := decode_eq_ok h
  obtain ⟨left, hrun, _⟩ := decodePayload_eq_ok hpayload
  rw [(FieldReader.storable_of_value hrun).1, hkind]

/-- The value of a frame that can be read is storable. -/
theorem storable_of_decode {bytes : Bytes} {frame : Frame} (h : decode bytes = .ok frame) :
    frame.value.Storable := by
  obtain ⟨kind, _, hpayload, _⟩ := decode_eq_ok h
  obtain ⟨left, hrun, _⟩ := decodePayload_eq_ok hpayload
  exact (FieldReader.storable_of_value hrun).2

/-- The salt of a filter that can be read fits its field. -/
theorem length_salt_of_decode {bytes : Bytes} {handle : BloomHandle} {expireAt : Option Instant}
    (h : decode bytes = .ok ⟨.bloom handle, expireAt⟩) :
    (Utf8.encode handle.salt).length < 4294967296 := by
  obtain ⟨kind, hkind, hpayload, _⟩ := decode_eq_ok h
  rw [peekKind_of_decode h] at hkind
  cases hkind
  obtain ⟨left, hrun, _⟩ := decodePayload_eq_ok hpayload
  obtain ⟨found, heq, hhandle⟩ := FieldReader.run_map_eq_ok hrun
  cases heq
  obtain ⟨_, _, _, h⟩ := FieldReader.run_bind_eq_ok hhandle
  obtain ⟨_, _, _, h⟩ := FieldReader.run_bind_eq_ok h
  obtain ⟨salt, _, hsalt, h⟩ := FieldReader.run_bind_eq_ok h
  cases h
  exact FieldReader.length_of_text hsalt

/-- Written metadata of a list is read as what was written, if at all. -/
theorem handle_eq_of_decode {bytes : Bytes} {handle found : ListHandle}
    {expireAt other : Option Instant} (hencode : encode ⟨.list handle, expireAt⟩ = .ok bytes)
    (hdecode : decode bytes = .ok ⟨.list found, other⟩) : found = handle := by
  have hkind := peekKind_encode hencode
  obtain ⟨body, expiry, hbody, hexpiry, rfl⟩ := encode_eq_ok_iff.mp hencode
  obtain ⟨htotal, htake, _⟩ := split_frame (Value.list handle).kind.tag body
    (expiryField_eq_ok hexpiry).1
  obtain ⟨kind, hkind', hpayload, _⟩ := decode_eq_ok hdecode
  rw [hkind] at hkind'
  cases hkind'
  rw [htotal, Nat.add_sub_cancel, htake] at hpayload
  obtain ⟨left, hrun, _⟩ := decodePayload_eq_ok hpayload
  obtain ⟨found', heq, hhandle⟩ := FieldReader.run_map_eq_ok hrun
  cases heq
  cases hbody
  have hfields : ∀ a b c : Bytes, a ++ b ++ c = a ++ (b ++ (c ++ [])) := by simp
  rw [hfields] at hhandle
  exact FieldReader.eq_of_listHandle hhandle

/-- A frame is read as of a kind exactly if it can be read and is of that
kind. -/
theorem decodeAs_eq_ok_iff {kind : Kind} {bytes : Bytes} {frame : Frame} :
    decodeAs kind bytes = .ok frame ↔ decode bytes = .ok frame ∧ frame.value.kind = kind := by
  unfold decodeAs decode
  cases hpeek : peekKind bytes with
  | error fault => simp
  | ok found =>
      simp only
      constructor
      · intro h
        split at h
        · rename_i hfound
          refine ⟨h, ?_⟩
          have hdecode : decode bytes = .ok frame := by rw [decode, hpeek]; exact h
          have hkind := peekKind_of_decode hdecode
          rw [hpeek] at hkind
          cases hkind
          exact hfound
        · cases h
      · rintro ⟨h, hkind⟩
        have hdecode : decode bytes = .ok frame := by rw [decode, hpeek]; exact h
        have hpeeked := peekKind_of_decode hdecode
        rw [hpeek] at hpeeked
        cases hpeeked
        rw [if_pos hkind, h]

end Frame
end StructuredStore

import StructuredStore.Proofs.Frame.RoundTrip

/-!
# Which frames can be written, and what is read of them

A frame has two kinds of parts that may be too large for their fields: counts
of nanoseconds and byte strings of variable length.  Each writer of the format
succeeds exactly if these parts fit, and fails with an overflow otherwise.  A
written frame is told from every other one, unless one of its times lies in a
leap second, its expiry is the very start of 1970, or its list is empty without
being in the empty form.

Main results:

- `writesIf_encode`: a frame can be written exactly if its parts fit.
- `encode_faithful`: writing loses nothing, and shows the kind to a reader that
  expects another one.
-/

namespace StructuredStore

/-! ## Parts that may not fit -/

/-- The counts of nanoseconds in the payload of the value. -/
@[simp]
def Value.times : Value → List Int
  | .timestamp instant => [instant.nanoseconds]
  | .duration d => [d.nanoseconds]
  | _ => []

/-- The byte strings that lie behind their lengths in the payload of the
value. -/
@[simp]
def Value.strings : Value → List Bytes
  | .text s => [Utf8.encode s]
  | .binary bytes | .bitmap bytes => [bytes]
  | .bloom handle => [Utf8.encode handle.salt]
  | .password record => [Utf8.encode record.algorithm, record.hash, record.salt]
  | .encrypted record => [Utf8.encode record.algorithm, record.ciphertext, record.nonce]
  | .share part => [part.share]
  | _ => []

/-- Whether a count of nanoseconds fits 64 bits. -/
def FitsInt64 (count : Int) : Prop :=
  -9223372036854775808 ≤ count ∧ count ≤ 9223372036854775807

instance (count : Int) : Decidable (FitsInt64 count) :=
  inferInstanceAs (Decidable (_ ∧ _))

/-- Whether the length of a byte string fits 32 bits. -/
def FitsPrefix (bytes : Bytes) : Prop :=
  bytes.length ≤ 4294967295

/-- Whether every part of the payload fits its field. -/
def Value.Fits (value : Value) : Prop :=
  (∀ count ∈ value.times, FitsInt64 count) ∧ ∀ bytes ∈ value.strings, FitsPrefix bytes

/-- Whether every part of the frame fits its field. -/
def Frame.Fits (frame : Frame) : Prop :=
  frame.value.Fits ∧ ∀ instant ∈ frame.expireAt, FitsInt64 instant.nanoseconds

namespace Frame

/-! ## Writers -/

/-- Whether a writer succeeds if the condition holds, and fails with an overflow
if it does not. -/
def WritesIf (fits : Prop) (field : Except DataError Bytes) : Prop :=
  (fits ∧ ∃ bytes, field = .ok bytes) ∨ (¬ fits ∧ field = .error .overflow)

namespace WritesIf

variable {fits : Prop} {field : Except DataError Bytes}

/-- What a writer that succeeds or fails says of its condition. -/
theorem outcome (h : WritesIf fits field) :
    (∀ fault, field = .error fault → fault = .overflow ∧ ¬ fits) ∧
      ∀ bytes, field = .ok bytes → fits := by
  obtain ⟨hfits, bytes, rfl⟩ | ⟨hfits, rfl⟩ := h
  · simp [hfits]
  · simp [hfits]

theorem ok {bytes : Bytes} (h : fits) : WritesIf fits (.ok bytes) :=
  Or.inl ⟨h, bytes, rfl⟩

theorem congr {other : Prop} (h : WritesIf fits field) (hiff : fits ↔ other) :
    WritesIf other field := by
  rwa [propext hiff] at h

/-- A sequence of writers succeeds if each of them does. -/
theorem bind {rest : Prop} {next : Bytes → Except DataError Bytes} (hfield : WritesIf fits field)
    (hnext : ∀ bytes, WritesIf rest (next bytes)) : WritesIf (fits ∧ rest) (field >>= next) := by
  obtain ⟨hfits, bytes, rfl⟩ | ⟨hfits, rfl⟩ := hfield
  · exact (hnext bytes).congr (by simp [hfits])
  · exact Or.inr ⟨by simp [hfits], rfl⟩

end WritesIf

/-! ## Fields -/

theorem writesIf_prefixedField (bytes : Bytes) :
    WritesIf (FitsPrefix bytes) (prefixedField bytes) := by
  unfold prefixedField FitsPrefix
  split
  · rename_i hlength
    exact .ok (Nat.le_of_lt_succ hlength)
  · rename_i hlength
    exact Or.inr ⟨by omega, rfl⟩

/-- A length of time has a 64-bit count exactly if its count fits. -/
theorem toInt64?_eq_none_iff (d : Span) : d.toInt64? = none ↔ ¬ FitsInt64 d.nanoseconds := by
  simp [Span.toInt64?, FitsInt64]

theorem writesIf_duration (d : Span) :
    WritesIf (FitsInt64 d.nanoseconds)
      (match d.toInt64? with
      | some count => .ok (int64Field count)
      | none => .error .overflow) := by
  have hiff := toInt64?_eq_none_iff d
  cases hcount : d.toInt64? with
  | none => exact Or.inr ⟨hiff.mp hcount, rfl⟩
  | some count =>
      apply WritesIf.ok
      simpa [hcount] using hiff

theorem writesIf_instantField (instant : Instant) :
    WritesIf (FitsInt64 instant.nanoseconds) (instantField instant) :=
  writesIf_duration ⟨instant.nanoseconds⟩

theorem writesIf_expiryField (expireAt : Option Instant) :
    WritesIf (∀ instant ∈ expireAt, FitsInt64 instant.nanoseconds) (expiryField expireAt) := by
  cases expireAt with
  | none => exact .ok (by simp)
  | some instant => exact (writesIf_instantField instant).congr (by simp)

/-! ## Payloads and frames -/

/-- A payload can be written exactly if its parts fit. -/
theorem writesIf_payload (v : Value) : WritesIf v.Fits (payload v) := by
  cases v with
  | text s => exact (writesIf_prefixedField (Utf8.encode s)).congr (by simp [Value.Fits])
  | timestamp instant => exact (writesIf_instantField instant).congr (by simp [Value.Fits])
  | duration d => exact (writesIf_duration d).congr (by simp [Value.Fits])
  | binary bytes | bitmap bytes =>
      exact (writesIf_prefixedField bytes).congr (by simp [Value.Fits])
  | bloom handle =>
      have hwrites := (writesIf_prefixedField (Utf8.encode handle.salt)).bind
        fun salt => @WritesIf.ok _ (handle.slots :: (uint64Field handle.count ++ salt)) trivial
      exact hwrites.congr (by simp [Value.Fits])
  | password record =>
      have hwrites := (writesIf_prefixedField (Utf8.encode record.algorithm)).bind
        fun algorithm => (writesIf_prefixedField record.hash).bind
        fun hash => (writesIf_prefixedField record.salt).bind
        fun salt => @WritesIf.ok _ (algorithm ++ hash ++ salt) trivial
      exact hwrites.congr (by simp [Value.Fits])
  | encrypted record =>
      have hwrites := (writesIf_prefixedField (Utf8.encode record.algorithm)).bind
        fun algorithm => (writesIf_prefixedField record.ciphertext).bind
        fun ciphertext => (writesIf_prefixedField record.nonce).bind
        fun nonce => @WritesIf.ok _ (algorithm ++ ciphertext ++ nonce) trivial
      exact hwrites.congr (by simp [Value.Fits])
  | share part =>
      have hwrites := (writesIf_prefixedField part.share).bind
        fun share => @WritesIf.ok _ (part.index :: part.threshold :: share) trivial
      exact hwrites.congr (by simp [Value.Fits])
  | _ => exact .ok (by simp [Value.Fits])

/-- A frame can be written exactly if its parts fit. -/
theorem writesIf_encode (frame : Frame) : WritesIf frame.Fits frame.encode := by
  have hwrites := (writesIf_payload frame.value).bind
    fun body => (writesIf_expiryField frame.expireAt).bind
    fun expiry => @WritesIf.ok _ (frame.value.kind.tag :: (body ++ expiry)) trivial
  exact hwrites.congr (by simp [Frame.Fits])

/-! ## Reading with an expected kind -/

/-- An expiry outside leap seconds that is not the start of 1970 is stored as it
is, if it can be written at all. -/
theorem asStored_of_fits {expireAt : Option Instant}
    (hfits : ∀ instant ∈ expireAt, FitsInt64 instant.nanoseconds)
    (h : ∀ instant ∈ expireAt, instant.nanos < 1000000000 ∧ instant.nanoseconds ≠ 0) :
    asStored expireAt = expireAt := by
  cases expireAt with
  | none => rfl
  | some instant =>
      obtain ⟨hnanos, hepoch⟩ := h instant rfl
      cases hcount : instant.toInt64? with
      | none => exact absurd (hfits instant rfl) ((toInt64?_eq_none_iff _).mp hcount)
      | some count =>
          have hnonzero : count ≠ 0 := by
            intro hzero
            have hvalue := Instant.toInt_of_toInt64? hcount
            rw [hzero] at hvalue
            exact hepoch hvalue.symm
          simp [asStored, hcount, hnonzero, Instant.ofInt64_of_toInt64? hcount hnanos]

/-- A reader that expects a kind gets the frame, or is told the kind that it
has. -/
theorem decodeAs_of_decode {bytes : Bytes} {frame : Frame} (h : decode bytes = .ok frame)
    (kind : Kind) :
    decodeAs kind bytes =
      if kind = frame.value.kind then .ok frame
      else .error (.typeMismatch kind frame.value.kind) := by
  split
  · rename_i hkind
    exact decodeAs_eq_ok_iff.mpr ⟨h, hkind.symm⟩
  · rename_i hkind
    simp [decodeAs, peekKind_of_decode h, Ne.symm hkind]

/-- Reading undoes writing.  Only an overflow of a time or of the length of a
byte string keeps a frame from being written; what is written is read back as
the same frame, by readers that expect nothing and by those that expect its
kind, and every other expectation is refused with the two kinds. -/
theorem encode_faithful (frame : Frame) (hstorable : frame.value.Storable)
    (hexpiry : ∀ instant ∈ frame.expireAt,
      instant.nanos < 1000000000 ∧ instant.nanoseconds ≠ 0) :
    (∀ fault, frame.encode = .error fault → fault = .overflow ∧ ¬ frame.Fits) ∧
      ∀ bytes, frame.encode = .ok bytes →
        decode bytes = .ok frame ∧ peekKind bytes = .ok frame.value.kind ∧
          ∀ kind, decodeAs kind bytes =
            if kind = frame.value.kind then .ok frame
            else .error (.typeMismatch kind frame.value.kind) := by
  obtain ⟨herror, hok⟩ := (writesIf_encode frame).outcome
  refine ⟨herror, ?_⟩
  intro bytes hencode
  have hdecode : decode bytes = .ok frame := by
    have hread := decode_encode hencode hstorable
    rwa [asStored_of_fits (hok bytes hencode).2 hexpiry] at hread
  exact ⟨hdecode, peekKind_of_decode hdecode, decodeAs_of_decode hdecode⟩

/-- A text with an expiry of one second is seven bytes and the expiry; a reader
of numbers is told that it is a text. -/
theorem encode_faithful_text :
    encode ⟨.text "hi", some (.ofInt64 1000000000)⟩ =
        .ok [0x05, 2, 0, 0, 0, 0x68, 0x69, 0x00, 0xca, 0x9a, 0x3b, 0, 0, 0, 0] ∧
      decodeAs .text [0x05, 2, 0, 0, 0, 0x68, 0x69, 0x00, 0xca, 0x9a, 0x3b, 0, 0, 0, 0] =
        .ok ⟨.text "hi", some (.ofInt64 1000000000)⟩ ∧
      decodeAs .int [0x05, 2, 0, 0, 0, 0x68, 0x69, 0x00, 0xca, 0x9a, 0x3b, 0, 0, 0, 0] =
        .error (.typeMismatch .int .text) := by
  have hencode : encode ⟨.text "hi", some (.ofInt64 1000000000)⟩ =
      .ok [0x05, 2, 0, 0, 0, 0x68, 0x69, 0x00, 0xca, 0x9a, 0x3b, 0, 0, 0, 0] := by
    decide +kernel
  have hexpiry : ∀ instant ∈ some (Instant.ofInt64 1000000000),
      instant.nanos < 1000000000 ∧ instant.nanoseconds ≠ 0 := by
    intro instant hinstant
    cases hinstant
    decide
  obtain ⟨_, _, hdecodeAs⟩ :=
    (encode_faithful ⟨.text "hi", some (.ofInt64 1000000000)⟩ trivial hexpiry).2 _ hencode
  exact ⟨hencode, hdecodeAs .text, hdecodeAs .int⟩

end Frame
end StructuredStore

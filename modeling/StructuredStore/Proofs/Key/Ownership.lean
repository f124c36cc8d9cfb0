import StructuredStore.Proofs.Key.Bucket

/-!
# Which physical keys belong to a logical one

A logical key owns its own physical key and everything under the stems of its
markers.  Logical keys without a colon and the keys of the expiry buckets own
different physical keys, so operations on one of them leave the others alone.

Main results:

- `marker_eq_of_stems`, `not_itemStem_prefix_ofText`: the stems of one logical
  key are disjoint, and its own key lies under none of them.
- `Owns.eq_or_extends`: two logical keys own a common physical key only if one
  is the other with the front of a stem behind it.
- `Logical.eq_of_owns`: keys without a colon and keys of buckets own nothing in
  common.
-/

namespace StructuredStore.Key

/-! ## Stems of one key -/

/-- The bytes of two markers differ. -/
theorem Marker.byte_injective {a b : Marker} (h : a.byte = b.byte) : a = b := by
  cases a <;> cases b <;> first | rfl | cases h

/-- The byte of a marker is a capital letter. -/
theorem Marker.toNat_byte (marker : Marker) :
    65 ≤ marker.byte.toNat ∧ marker.byte.toNat ≤ 90 := by
  cases marker <;> decide

theorem itemStem_eq (key : String) (marker : Marker) :
    itemStem key marker = ofText key ++ [0x3a, marker.byte, 0x3a] := rfl

@[simp]
theorem length_itemStem (key : String) (marker : Marker) :
    (itemStem key marker).length = (ofText key).length + 3 := by
  rw [itemStem_eq, List.length_append]
  rfl

/-- A key lies under none of its own stems. -/
theorem not_itemStem_prefix_ofText (key : String) (marker : Marker) :
    ¬ itemStem key marker <+: ofText key := by
  intro h
  have hlength := h.length_le
  rw [length_itemStem] at hlength
  omega

/-- The stems of one key are disjoint. -/
theorem marker_eq_of_stems {key : String} {a b : Marker} {physical : Bytes}
    (ha : itemStem key a <+: physical) (hb : itemStem key b <+: physical) : a = b := by
  have hprefix := List.prefix_of_prefix_length_le ha hb (by simp)
  have heq := hprefix.eq_of_length (by simp)
  rw [itemStem_eq, itemStem_eq] at heq
  have htail := List.append_cancel_left heq
  exact Marker.byte_injective (List.cons.inj (List.cons.inj htail).2).1

/-! ## Ownership -/

/-- Whether a physical key belongs to a logical one: it is that key's own, or
lies under one of its stems. -/
def Owns (key : String) (physical : Bytes) : Prop :=
  physical = ofText key ∨ ∃ marker, itemStem key marker <+: physical

/-- A key owns its metadata row. -/
theorem Owns.self (key : String) : Owns key (ofText key) :=
  Or.inl rfl

/-- A key owns every row under one of its stems. -/
theorem Owns.under {key : String} {marker : Marker} {physical : Bytes}
    (h : itemStem key marker <+: physical) : Owns key physical :=
  Or.inr ⟨marker, h⟩

/-- A key owns the items it names. -/
theorem Owns.item (key : String) (marker : Marker) (selector : Bytes) :
    Owns key (item key marker selector) :=
  .under (List.prefix_append _ _)

/-- A key owns the items of its list. -/
theorem Owns.listItem (key : String) (index : Int64) : Owns key (listItem key index) :=
  .item key .list _

/-- Whether a physical key is that of a list or of one of its items. -/
def OfList (key : String) (physical : Bytes) : Prop :=
  physical = ofText key ∨ ∃ index, physical = listItem key index

/-- Whatever row is of a key's list is owned by the key. -/
theorem OfList.owns {key : String} {physical : Bytes} (h : OfList key physical) :
    Owns key physical := by
  obtain rfl | ⟨index, rfl⟩ := h
  · exact .self key
  · exact .listItem key index

/-- What may follow a logical key in a physical key of its own. -/
def IsTail (tail : Bytes) : Prop :=
  tail = [] ∨ ∃ (marker : Marker) (rest : Bytes), tail = 0x3a :: marker.byte :: 0x3a :: rest

/-- An owned key is the logical key with such a tail. -/
theorem Owns.exists_tail {key : String} {physical : Bytes} (h : Owns key physical) :
    ∃ tail, IsTail tail ∧ physical = ofText key ++ tail := by
  rcases h with rfl | ⟨marker, rest, rfl⟩
  · exact ⟨[], Or.inl rfl, by simp⟩
  · refine ⟨0x3a :: marker.byte :: 0x3a :: rest, Or.inr ⟨marker, rest, rfl⟩, ?_⟩
    simp [itemStem_eq]

/-- A tail that ends in another tail is that tail, or starts a stem. -/
theorem IsTail.front_cases {front tail other : Bytes} (htail : IsTail tail)
    (hother : IsTail other) (h : tail = front ++ other) :
    front = [] ∨ ∃ marker : Marker, [0x3a, marker.byte] <+: front := by
  cases front with
  | nil => exact Or.inl rfl
  | cons x front =>
      right
      rcases htail with rfl | ⟨marker, rest, rfl⟩
      · simp at h
      · cases front with
        | nil =>
            -- A single byte is no tail's front: behind it would stand a marker, not a colon.
            simp only [List.singleton_append, List.cons.injEq] at h
            have hletter := marker.toNat_byte
            rcases hother with rfl | ⟨other, rest', rfl⟩
            · simp at h
            · have hcolon : marker.byte = 0x3a := (List.cons.inj h.2).1
              rw [hcolon] at hletter
              exact absurd hletter (by decide)
        | cons y front =>
            simp only [List.cons_append, List.cons.injEq] at h
            refine ⟨marker, ?_⟩
            rw [h.1, h.2.1]
            exact List.prefix_append [x, y] front

/-- Two logical keys own a common physical key only if one is the other with
the front of a stem behind it. -/
theorem Owns.eq_or_extends {a b : String} {physical : Bytes} (ha : Owns a physical)
    (hb : Owns b physical) :
    a = b ∨ ∃ marker : Marker, ofText a ++ [0x3a, marker.byte] <+: ofText b ∨
      ofText b ++ [0x3a, marker.byte] <+: ofText a := by
  obtain ⟨ta, hta, rfl⟩ := ha.exists_tail
  obtain ⟨tb, htb, heq⟩ := hb.exists_tail
  rcases List.append_eq_append_iff.mp heq with ⟨front, hfront, htail⟩ | ⟨front, hfront, htail⟩
  · rcases hta.front_cases htb htail with rfl | ⟨marker, hmarker⟩
    · left
      apply Utf8.encode_injective
      simpa [ofText] using hfront.symm
    · exact Or.inr ⟨marker, Or.inl (by rw [hfront]; simpa using hmarker)⟩
  · rcases htb.front_cases hta htail with rfl | ⟨marker, hmarker⟩
    · left
      apply Utf8.encode_injective
      simpa [ofText] using hfront
    · exact Or.inr ⟨marker, Or.inr (by rw [hfront]; simpa using hmarker)⟩

/-! ## Keys that own nothing in common -/

/-- Whether a logical key has no colon. -/
def ColonFree (key : String) : Prop :=
  ':' ∉ key.toList

instance (key : String) : Decidable (ColonFree key) :=
  inferInstanceAs (Decidable (¬ _))

theorem ColonFree.notMem {key : String} (h : ColonFree key) : 0x3a ∉ ofText key := by
  intro hmem
  exact h ((Utf8.ascii_mem_encode_iff (by decide) key).mp hmem)

/-- A key without colon is owned by itself only. -/
theorem ColonFree.eq_of_owns {key other : String} (hkey : ColonFree key)
    (h : Owns other (ofText key)) : other = key := by
  rcases h with heq | ⟨marker, hstem⟩
  · exact (Utf8.encode_injective heq).symm
  · exact absurd (hstem.subset (by simp [itemStem_eq])) hkey.notMem

/-- Whether a logical key has no colon, or is that of an expiry bucket. -/
def Logical (key : String) : Prop :=
  ColonFree key ∨ ∃ seconds, key = bucket seconds

theorem Logical.bucket (seconds : Int64) : Logical (bucket seconds) :=
  Or.inr ⟨seconds, rfl⟩

/-- Byte strings are cut at the first colon in one way only. -/
theorem eq_of_append_colon {a b ra rb : Bytes} (ha : 0x3a ∉ a) (hb : 0x3a ∉ b)
    (h : a ++ 0x3a :: ra = b ++ 0x3a :: rb) : a = b ∧ ra = rb := by
  rcases List.append_eq_append_iff.mp h with ⟨front, hfront, htail⟩ | ⟨front, hfront, htail⟩
  · cases front with
    | nil => exact ⟨by simpa using hfront.symm, by simpa using htail⟩
    | cons x front =>
        obtain ⟨rfl, _⟩ := List.cons.inj htail
        exact absurd (by rw [hfront]; simp) hb
  · cases front with
    | nil => exact ⟨by simpa using hfront, by simpa using htail.symm⟩
    | cons x front =>
        obtain ⟨rfl, _⟩ := List.cons.inj htail
        exact absurd (by rw [hfront]; simp) ha

theorem colon_notMem_bucketName : 0x3a ∉ bucketName := by decide

/-- A bucket's key is nothing without a colon with the front of a stem behind
it: behind the first colon stands a digit and not a letter. -/
theorem not_extends_bucket {name : Bytes} (hname : 0x3a ∉ name) (marker : Marker)
    (seconds : Int64) : ¬ name ++ [0x3a, marker.byte] <+: ofText (bucket seconds) := by
  intro ⟨rest, hrest⟩
  rw [ofText_bucket, List.append_assoc] at hrest
  obtain ⟨_, hdigits⟩ := eq_of_append_colon hname colon_notMem_bucketName hrest
  have hdigit : marker.byte ∈ Numeral.digitBytes bucketDigits (bucketOrdinal seconds) := by
    simp [← hdigits]
  have hbyte := Numeral.toNat_of_mem_digitBytes hdigit
  have hletter := marker.toNat_byte
  omega

/-- No key without a colon and no bucket's key is another one with the front of
a stem behind it. -/
theorem Logical.not_extends {a b : String} (ha : Logical a) (hb : Logical b) (marker : Marker) :
    ¬ ofText a ++ [0x3a, marker.byte] <+: ofText b := by
  intro h
  obtain hb | ⟨seconds, rfl⟩ := hb
  · exact hb.notMem (h.subset (by simp))
  · obtain ha | ⟨other, rfl⟩ := ha
    · exact not_extends_bucket ha.notMem marker seconds h
    · have hlength := h.length_le
      simp only [ofText_bucket, List.length_append, List.length_cons,
        Numeral.length_digitBytes, List.length_nil] at hlength
      omega

/-- Keys without a colon and keys of buckets own nothing in common. -/
theorem Logical.eq_of_owns {a b : String} {physical : Bytes} (ha : Logical a) (hb : Logical b)
    (hpa : Owns a physical) (hpb : Owns b physical) : a = b := by
  rcases hpa.eq_or_extends hpb with heq | ⟨marker, h | h⟩
  · exact heq
  · exact absurd h (ha.not_extends hb marker)
  · exact absurd h (hb.not_extends ha marker)

/-! ## Buckets among other keys -/

/-- A key without a colon is no bucket. -/
theorem ColonFree.ne_bucket {key : String} (h : ColonFree key) (seconds : Int64) :
    key ≠ Key.bucket seconds := by
  rintro rfl
  apply h.notMem
  rw [ofText_bucket]
  simp

end StructuredStore.Key

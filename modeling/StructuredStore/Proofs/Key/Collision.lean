import StructuredStore.Proofs.Key.Ownership

/-!
# Which logical keys meet

Physical keys are put together without escapes, so a logical key with a colon
in it may lie among the items of another one.  Two different logical keys own a
common physical key exactly if one of them, with a colon behind it, starts with
an item stem of the other.

Main results:

- `exists_owned_iff`: when two logical keys own a common physical key.
- `items_meet_iff`: when items of two logical keys have a common physical key.
- `not_owns_bucket`: an unreserved key meets no expiry bucket.
- `IsBucket.front_of_owns`: what owns something in a bucket lies there itself.
-/

namespace StructuredStore.Key

/-- Whether the second logical key lies among the items of the first one, or its
items do. -/
def Reaches (a b : String) : Prop :=
  ∃ marker : Marker, itemStem a marker <+: ofText b ++ [0x3a]

theorem reaches_iff (a b : String) :
    Reaches a b ↔ ∃ marker ∈ [Marker.list, .map, .set, .bloom, .series],
      itemStem a marker <+: ofText b ++ [0x3a] := by
  constructor
  · intro ⟨marker, h⟩
    exact ⟨marker, by cases marker <;> simp, h⟩
  · intro ⟨marker, _, h⟩
    exact ⟨marker, h⟩

instance (a b : String) : Decidable (Reaches a b) :=
  decidable_of_iff _ (reaches_iff a b).symm

/-- Whether two logical keys are different and neither reaches the other. -/
structure Apart (a b : String) : Prop where
  ne : a ≠ b
  not_reaches : ¬ Reaches a b
  not_reached : ¬ Reaches b a

/-! ## Common physical keys -/

/-- A longer key whose physical keys meet those of a shorter one is reached by
it. -/
theorem Owns.reaches {a b : String} {physical : Bytes} (ha : Owns a physical)
    (hb : Owns b physical) (hlength : (ofText a).length + 2 ≤ (ofText b).length) :
    Reaches a b := by
  obtain ⟨tail, htail, rfl⟩ := hb.exists_tail
  obtain heq | ⟨marker, hstem⟩ := ha
  · have htotal := congrArg List.length heq
    rw [List.length_append] at htotal
    omega
  · refine ⟨marker, ?_⟩
    obtain rfl | ⟨other, rest, rfl⟩ := htail
    · rw [List.append_nil] at hstem
      exact hstem.trans (List.prefix_append _ _)
    · -- The stem is no longer than the second key with a colon behind it.
      apply @List.prefix_of_prefix_length_le _ _ (ofText b ++ [0x3a]) _ hstem
      · exact ⟨other.byte :: 0x3a :: rest, by simp⟩
      · rw [length_itemStem, List.length_append, List.length_singleton]
        omega

/-- A key that is reached shares the stems of its items with the other one. -/
theorem Reaches.owns_itemStem {a b : String} (h : Reaches a b) (marker : Marker) :
    Owns a (itemStem b marker) := by
  obtain ⟨other, hstem⟩ := h
  apply Owns.under (hstem.trans _)
  exact ⟨[marker.byte, 0x3a], by simp [itemStem_eq]⟩

/-- Two logical keys own a common physical key exactly if they are the same or
one reaches the other. -/
theorem exists_owned_iff (a b : String) :
    (∃ physical, Owns a physical ∧ Owns b physical) ↔ a = b ∨ Reaches a b ∨ Reaches b a := by
  constructor
  · intro ⟨physical, ha, hb⟩
    obtain heq | ⟨marker, h | h⟩ := ha.eq_or_extends hb
    · exact Or.inl heq
    · have hlength := h.length_le
      rw [List.length_append] at hlength
      exact Or.inr (Or.inl (ha.reaches hb hlength))
    · have hlength := h.length_le
      rw [List.length_append] at hlength
      exact Or.inr (Or.inr (hb.reaches ha hlength))
  · intro h
    obtain rfl | h | h := h
    · exact ⟨ofText a, .self a, .self a⟩
    · exact ⟨itemStem b .list, h.owns_itemStem .list, .under List.prefix_rfl⟩
    · exact ⟨itemStem a .list, .under List.prefix_rfl, h.owns_itemStem .list⟩

/-- Whether an item of the first logical key lies where the second one or one of
its items does. -/
def Meets (a b : String) : Prop :=
  ∃ (marker : Marker) (selector : Bytes), item a marker selector = ofText b ∨
    ∃ (other : Marker) (rest : Bytes), item a marker selector = item b other rest

/-- A key that meets another one owns a key of it. -/
theorem Meets.exists_owned {a b : String} (h : Meets a b) :
    ∃ physical, Owns a physical ∧ Owns b physical := by
  obtain ⟨marker, selector, heq | ⟨other, rest, heq⟩⟩ := h
  · exact ⟨ofText b, heq ▸ .item a marker selector, .self b⟩
  · exact ⟨item b other rest, heq ▸ .item a marker selector, .item b other rest⟩

/-- A key that reaches another one has an item where the first item of any kind of
the other one could lie. -/
theorem Reaches.meets {a b : String} (h : Reaches a b) : Meets a b := by
  obtain ⟨marker, hstem⟩ := h
  have hextends : ofText b ++ [0x3a] <+: itemStem b .list :=
    ⟨[Marker.list.byte, 0x3a], by simp [itemStem_eq]⟩
  obtain ⟨selector, hselector⟩ := hstem.trans hextends
  refine ⟨marker, selector, Or.inr ⟨.list, [], ?_⟩⟩
  rw [item, hselector, item, List.append_nil]

/-- The items of one key are told apart by their markers and selectors. -/
theorem item_inj {key : String} {marker other : Marker} {selector rest : Bytes} :
    item key marker selector = item key other rest ↔ marker = other ∧ selector = rest := by
  constructor
  · intro h
    have hmarker : marker = other :=
      marker_eq_of_stems (List.prefix_append _ selector) ⟨rest, h.symm⟩
    subst hmarker
    exact ⟨rfl, List.append_cancel_left h⟩
  · rintro ⟨rfl, rfl⟩
    rfl

/-- An item lies elsewhere than its key. -/
theorem item_ne_ofText (key : String) (marker : Marker) (selector : Bytes) :
    item key marker selector ≠ ofText key :=
  fun h => not_itemStem_prefix_ofText key marker ⟨selector, h⟩

/-- Items of two different keys meet, or items of one of them and the other key,
exactly if one of the keys with a colon behind it starts with an item stem of the
other.  Within one key nothing meets. -/
theorem items_meet_iff {a b : String} (hne : a ≠ b) :
    ((Meets a b ∨ Meets b a) ↔ ∃ marker, itemStem a marker <+: ofText b ++ [0x3a] ∨
      itemStem b marker <+: ofText a ++ [0x3a]) ∧
    ∀ (key : String) (marker other : Marker) (selector rest : Bytes),
      (item key marker selector = item key other rest ↔ marker = other ∧ selector = rest) ∧
      item key marker selector ≠ ofText key := by
  refine ⟨⟨fun h => ?_, ?_⟩, fun key marker other selector rest =>
    ⟨item_inj, item_ne_ofText key marker selector⟩⟩
  · have howned : ∃ physical, Owns a physical ∧ Owns b physical := by
      rcases h with h | h
      · exact h.exists_owned
      · obtain ⟨physical, hb, ha⟩ := h.exists_owned
        exact ⟨physical, ha, hb⟩
    obtain heq | ⟨marker, h⟩ | ⟨marker, h⟩ := (exists_owned_iff a b).mp howned
    · exact absurd heq hne
    · exact ⟨marker, Or.inl h⟩
    · exact ⟨marker, Or.inr h⟩
  · rintro ⟨marker, h | h⟩
    · exact Or.inl (Reaches.meets ⟨marker, h⟩)
    · exact Or.inr (Reaches.meets ⟨marker, h⟩)

/-- A key that ends behind the marker of another one's items meets it, and one that
ends with the colon in front of the marker does not. -/
theorem items_meet_iff_inside :
    "a" ≠ "a:M" ∧ (Meets "a" "a:M" ∨ Meets "a:M" "a") ∧
      "a" ≠ "a:" ∧ ¬ (Meets "a" "a:" ∨ Meets "a:" "a") := by
  have hne : "a" ≠ "a:M" := by decide
  have hcolon : "a" ≠ "a:" := by decide
  refine ⟨hne, (items_meet_iff hne).1.mpr ⟨.map, Or.inl (by decide)⟩, hcolon, ?_⟩
  rw [(items_meet_iff hcolon).1]
  rintro ⟨marker, h⟩
  revert h
  cases marker <;> decide

/-- Keys that are apart own nothing in common. -/
theorem Apart.not_owns {a b : String} (h : Apart a b) {physical : Bytes}
    (ha : Owns a physical) : ¬ Owns b physical := by
  intro hb
  obtain heq | hreaches | hreached := (exists_owned_iff a b).mp ⟨physical, ha, hb⟩
  · exact h.ne heq
  · exact h.not_reaches hreaches
  · exact h.not_reached hreached

/-! ## Buckets and unreserved keys -/

theorem isReserved_iff (key : String) :
    isReserved key = true ↔ bucketName ++ [0x3a] <+: ofText key := by
  rw [isReserved, List.isPrefixOf_iff_prefix, encode_bucketStem, ofText]

theorem ColonFree.isReserved {key : String} (hkey : ColonFree key) : isReserved key = false := by
  by_contra hreserved
  have hstem := (isReserved_iff key).mp (by simpa using hreserved)
  exact hkey.notMem (hstem.subset (by simp))

theorem isReserved_bucket (seconds : Int64) : isReserved (bucket seconds) = true := by
  rw [isReserved_iff, ofText_bucket]
  exact ⟨Numeral.digitBytes bucketDigits (bucketOrdinal seconds), by simp⟩

/-- What is shorter than the stem of the buckets and starts like it has no
colon. -/
theorem colon_notMem_of_prefix_bucket {key : String} (h : isReserved key = false)
    {seconds : Int64} (hfront : ofText key <+: ofText (bucket seconds)) :
    0x3a ∉ ofText key := by
  have hstem : bucketName ++ [0x3a] <+: ofText (bucket seconds) :=
    (isReserved_iff _).mp (isReserved_bucket seconds)
  have hnot : ¬ bucketName ++ [0x3a] <+: ofText key := by
    simp [← isReserved_iff, h]
  obtain hshort | hlong := List.prefix_or_prefix_of_prefix hfront hstem
  · obtain heq | hname := List.prefix_concat_iff.mp hshort
    · exact absurd (heq ▸ List.prefix_rfl) hnot
    · exact fun hmem => colon_notMem_bucketName (hname.subset hmem)
  · exact absurd hlong hnot

/-- An unreserved key owns nothing that belongs to a bucket. -/
theorem not_owns_bucket {key : String} (h : isReserved key = false) {seconds : Int64}
    {physical : Bytes} (hkey : Owns key physical) : ¬ Owns (bucket seconds) physical := by
  intro hbucket
  obtain rfl | ⟨marker, hextends | hextends⟩ := hkey.eq_or_extends hbucket
  · rw [isReserved_bucket] at h
    cases h
  · have hcolon := colon_notMem_of_prefix_bucket h ((List.prefix_append _ _).trans hextends)
    exact not_extends_bucket hcolon marker seconds hextends
  · have hstem := ((isReserved_iff _).mp (isReserved_bucket seconds)).trans
      ((List.prefix_append _ _).trans hextends)
    rw [← isReserved_iff, h] at hstem
    cases hstem

/-- What a reserved key owns starts like a bucket. -/
theorem isReserved_of_owns {a b : String} (h : isReserved a = true) (howns : Owns a (ofText b)) :
    isReserved b = true := by
  rw [isReserved_iff] at h ⊢
  obtain ⟨tail, _, htail⟩ := howns.exists_tail
  rw [htail]
  exact h.trans (List.prefix_append _ _)

/-! ## Keys that look like those of buckets -/

/-- Whether a key starts like that of a bucket and is as long. -/
structure LikeBucket (key : String) : Prop where
  reserved : isReserved key = true
  length : (ofText key).length = 31

theorem length_ofText_bucket (seconds : Int64) : (ofText (bucket seconds)).length = 31 := by
  simp [ofText_bucket, bucketName, bucketDigits]

theorem likeBucket_bucket (seconds : Int64) : LikeBucket (bucket seconds) :=
  ⟨isReserved_bucket seconds, length_ofText_bucket seconds⟩

/-- A key that is read as that of a bucket is like one. -/
theorem likeBucket_of_bucketOrdinal? {key : String} {ordinal : Nat}
    (hstem : Utf8.encode bucketStem <+: ofText key)
    (h : bucketOrdinal? (ofText key) = some ordinal) : LikeBucket key := by
  have hreserved := (isReserved_iff key).mpr (encode_bucketStem ▸ hstem)
  obtain ⟨rest, hrest⟩ := hstem
  rw [← hrest] at h
  have hlength := (numeral_of_bucketOrdinal? h).1
  exact ⟨hreserved, by simp [← hrest, encode_bucketStem, bucketName, hlength, bucketDigits]⟩

/-- Keys of one length own nothing in common unless they are the same. -/
theorem eq_of_owns_of_length {a b : String} {physical : Bytes}
    (hlength : (ofText a).length = (ofText b).length) (ha : Owns a physical)
    (hb : Owns b physical) : a = b := by
  obtain heq | ⟨marker, hextends | hextends⟩ := ha.eq_or_extends hb
  · exact heq
  · have hle := hextends.length_le
    simp only [List.length_append, List.length_cons, List.length_nil] at hle
    omega
  · have hle := hextends.length_le
    simp only [List.length_append, List.length_cons, List.length_nil] at hle
    omega

/-- A change of what is like a bucket is none of another bucket. -/
theorem LikeBucket.not_owns {key : String} (h : LikeBucket key) {seconds : Int64}
    (hne : bucket seconds ≠ key) {physical : Bytes} (hbucket : Owns (bucket seconds) physical) :
    ¬ Owns key physical := by
  intro hkey
  apply hne
  apply eq_of_owns_of_length _ hbucket hkey
  rw [length_ofText_bucket, h.length]

/-! ## Keys that are read as those of buckets -/

/-- Whether a key is read as that of a bucket. -/
structure IsBucket (key : String) : Prop where
  stem : Utf8.encode bucketStem <+: ofText key
  ordinal : (bucketOrdinal? (ofText key)).isSome = true

/-- Whether a key is read as that of a bucket, or starts with one that is. -/
def InBucket (key : String) : Prop :=
  ∃ bucket, IsBucket bucket ∧ ofText bucket <+: ofText key

theorem IsBucket.inBucket {key : String} (h : IsBucket key) : InBucket key :=
  ⟨key, h, List.prefix_rfl⟩

theorem isBucket_bucket (seconds : Int64) : IsBucket (bucket seconds) := by
  constructor
  · rw [ofText, bucket, Utf8.encode_append]
    exact List.prefix_append _ _
  · rw [bucketOrdinal?_bucket]
    rfl

/-- A physical key that is read as that of a bucket is that of a text. -/
theorem exists_isBucket {physical : Bytes} (hstem : Utf8.encode bucketStem <+: physical)
    (hordinal : (bucketOrdinal? physical).isSome = true) :
    ∃ key, physical = ofText key ∧ IsBucket key := by
  obtain ⟨digits, rfl⟩ := hstem
  obtain ⟨text, htext⟩ : ∃ text, Utf8.decode? digits = some text := by
    by_contra hnone
    rw [not_exists, ← Option.eq_none_iff_forall_ne_some] at hnone
    simp [bucketOrdinal?, hnone] at hordinal
  refine ⟨bucketStem ++ text, ?_, ?_⟩
  · rw [ofText, Utf8.encode_append, Utf8.encode_of_decode? htext]
  · constructor <;> rw [ofText, Utf8.encode_append, Utf8.encode_of_decode? htext]
    · exact List.prefix_append _ _
    · exact hordinal

namespace IsBucket

variable {key bucket : String} {physical : Bytes}

theorem likeBucket (h : IsBucket key) : LikeBucket key := by
  obtain ⟨ordinal, hordinal⟩ := Option.isSome_iff_exists.mp h.ordinal
  exact likeBucket_of_bucketOrdinal? h.stem hordinal

/-- The only colon of a bucket's key is that of the stem. -/
theorem count_colon (h : IsBucket key) : (ofText key).count 0x3a = 1 := by
  obtain ⟨digits, hdigits⟩ := h.stem
  obtain ⟨ordinal, hordinal⟩ := Option.isSome_iff_exists.mp h.ordinal
  rw [← hdigits] at hordinal ⊢
  rw [List.count_append, List.count_eq_zero.mpr (numeral_of_bucketOrdinal? hordinal).2]
  rfl

/-- A physical key starts with one bucket at most. -/
theorem eq_of_front {other : String} (h : IsBucket bucket) (hother : IsBucket other)
    (hfront : ofText bucket <+: physical) (hfront' : ofText other <+: physical) :
    bucket = other := by
  have hlength : (ofText bucket).length = (ofText other).length :=
    h.likeBucket.length.trans hother.likeBucket.length.symm
  have hstart := List.prefix_of_prefix_length_le hfront hfront' (le_of_eq hlength)
  exact Utf8.encode_injective (hstart.eq_of_length hlength)

/-- A key that owns something in a bucket lies there itself: it cannot be shorter
than the bucket's, where no marker stands between two colons. -/
theorem front_of_owns (h : IsBucket bucket) (howns : Owns key physical)
    (hfront : ofText bucket <+: physical) : ofText bucket <+: ofText key := by
  obtain rfl | ⟨marker, hstem⟩ := howns
  · exact hfront
  have hkey : ofText key <+: physical := (List.prefix_append _ _).trans hstem
  by_contra hshort
  have hlength : (ofText key).length < (ofText bucket).length := by
    by_contra hle
    exact hshort (List.prefix_of_prefix_length_le hfront hkey (by omega))
  have hbucket := h.likeBucket.length
  have hcount : ∀ {front : Bytes}, front <+: ofText bucket → front.count 0x3a ≤ 1 :=
    fun hstart => h.count_colon ▸ hstart.sublist.count_le 0x3a
  by_cases hlong : (itemStem key marker).length ≤ (ofText bucket).length
  · -- The stem has a colon on each side of its marker.
    have htwo := hcount (List.prefix_of_prefix_length_le hstem hfront hlong)
    rw [itemStem_eq, List.count_append, List.count_cons_self, List.count_cons,
      List.count_cons_self] at htwo
    omega
  · -- The stem's first colon stands behind that of the bucket.
    rw [length_itemStem] at hlong
    have hstemLength : (Utf8.encode bucketStem).length = 11 := rfl
    have hname : Utf8.encode bucketStem <+: ofText key :=
      List.prefix_of_prefix_length_le (h.stem.trans hfront) hkey (by omega)
    have hcolon : ofText key ++ [0x3a] <+: ofText bucket := by
      refine List.prefix_of_prefix_length_le (List.IsPrefix.trans ?_ hstem) hfront ?_
      · exact ⟨[marker.byte, 0x3a], by simp [itemStem_eq]⟩
      · rw [List.length_append, List.length_singleton]
        omega
    have htwo := hcount hcolon
    have hone : (Utf8.encode bucketStem).count 0x3a ≤ (ofText key).count 0x3a :=
      hname.sublist.count_le 0x3a
    have hstemCount : (Utf8.encode bucketStem).count 0x3a = 1 := rfl
    rw [List.count_append, List.count_singleton_self] at htwo
    omega

end IsBucket

theorem InBucket.isReserved {key : String} (h : InBucket key) : Key.isReserved key = true := by
  obtain ⟨bucket, hbucket, hfront⟩ := h
  exact (isReserved_iff key).mpr (((isReserved_iff bucket).mp hbucket.likeBucket.reserved).trans
    hfront)

end StructuredStore.Key

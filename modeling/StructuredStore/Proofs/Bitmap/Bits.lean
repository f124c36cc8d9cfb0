import Mathlib.Data.Nat.Bitwise
import StructuredStore.Proofs.Frame.Canonical
import StructuredStore.Proofs.Store.Steps
import StructuredStore.Store.Bitmap

/-!
# Bitmaps as bit vectors

A byte string stands for an infinite vector of bits, zero past the end.  Setting
a bit replaces it in the vector and nothing else, so the number of ones changes
by what the bit changes.

Main results:

- `bit_assign`, `count_assign`: what an assignment does to the bits and to the
  number of ones.
- `setBit_replaces_bit`: what setting a bit at a key does to the vector that the
  reads of the key show.
-/

namespace StructuredStore.Bitmap

/-! ## The vector of a byte string -/

/-- The bit at a place of the vector, the highest bit of the first byte first. -/
def bit (bits : Bytes) (place : Nat) : Bool :=
  (bits.getD (place / 8) 0).toNat.testBit (7 - place % 8)

/-- Past the end there are zeros. -/
theorem bit_of_le {bits : Bytes} {place : Nat} (h : 8 * bits.length ≤ place) :
    bit bits place = false := by
  have hpast : bits.getD (place / 8) 0 = 0 := List.getD_eq_default _ _ (by omega)
  rw [bit, hpast]
  exact Nat.zero_testBit _

@[simp]
theorem bit_nil (place : Nat) : bit [] place = false :=
  bit_of_le (Nat.zero_le place)

/-- The mask of an offset is a single bit. -/
theorem toNat_maskOf (offset : UInt64) :
    (maskOf offset).toNat = 2 ^ (7 - offset.toNat % 8) := by
  have hshift : ∀ k < 8, (0x80 >>> UInt8.ofNat k : UInt8).toNat = 2 ^ (7 - k) := by decide
  exact hshift _ (Nat.mod_lt _ (by decide))

theorem test_eq_bit (bits : Bytes) (offset : UInt64) : test bits offset = bit bits offset.toNat := by
  have hzero : (0 : UInt8) &&& maskOf offset = 0 := by simp
  have hmask : ∀ byte : UInt8,
      (byte &&& maskOf offset != 0) = byte.toNat.testBit (7 - offset.toNat % 8) := by
    intro byte
    rw [Bool.eq_iff_iff, bne_iff_ne, ne_eq, ← UInt8.toNat_inj, UInt8.toNat_and, toNat_maskOf,
      Nat.and_two_pow]
    cases byte.toNat.testBit (7 - offset.toNat % 8) <;> simp
  rw [test, bit, byteOf, List.getD_eq_getElem?_getD]
  cases bits[offset.toNat / 8]? with
  | none => simp
  | some byte => exact hmask byte

/-! ## Assignments -/

@[simp]
theorem length_assign (bits : Bytes) (offset : UInt64) (on : Bool) :
    (assign bits offset on).length = max bits.length (byteOf offset + 1) := by
  simp only [assign, List.length_modify, List.length_append, List.length_replicate]
  omega

/-- A byte of a lengthened bitmap. -/
theorem getD_append_zeros (bits : Bytes) (count place : Nat) :
    (bits ++ List.replicate count 0).getD place 0 = bits.getD place 0 := by
  rw [List.getD_eq_getElem?_getD, List.getD_eq_getElem?_getD, List.getElem?_append]
  split
  · rfl
  · rename_i hpast
    rw [List.getElem?_eq_none (Nat.le_of_not_lt hpast), List.getElem?_replicate]
    split <;> rfl

/-- The bytes of an assignment: the one of the offset is changed. -/
theorem getD_assign (bits : Bytes) (offset : UInt64) (on : Bool) (place : Nat) :
    (assign bits offset on).getD place 0 =
      if byteOf offset = place then
        if on then bits.getD place 0 ||| maskOf offset else bits.getD place 0 &&& ~~~ maskOf offset
      else bits.getD place 0 := by
  have hgrown := getD_append_zeros bits (byteOf offset + 1 - bits.length) place
  rw [assign, List.getD_eq_getElem?_getD, List.getElem?_modify]
  rw [List.getD_eq_getElem?_getD] at hgrown
  by_cases hplace : byteOf offset = place
  · subst hplace
    have hin : byteOf offset <
        (bits ++ List.replicate (byteOf offset + 1 - bits.length) (0 : UInt8)).length := by
      rw [List.length_append, List.length_replicate]
      omega
    rw [List.getElem?_eq_getElem hin] at hgrown ⊢
    simp only [Option.getD_some] at hgrown
    simp [hgrown]
  · simp only [if_neg hplace]
    rw [← hgrown]
    simp

/-- A mask sets or clears one bit of a byte. -/
theorem testBit_masked (byte mask : UInt8) {k : Nat} (hmask : mask.toNat = 2 ^ k) (on : Bool)
    (i : Nat) (hi : i < 8) :
    (if on then byte ||| mask else byte &&& ~~~ mask).toNat.testBit i =
      if i = k then on else byte.toNat.testBit i := by
  cases on with
  | true =>
      rw [if_pos rfl, UInt8.toNat_or, hmask, Nat.testBit_or, Nat.testBit_two_pow]
      by_cases hik : i = k
      · simp [hik]
      · simp [hik, Ne.symm hik]
  | false =>
      have hnot : (~~~ mask).toNat = 2 ^ 8 - (2 ^ k + 1) := by
        rw [UInt8.toNat_not, hmask, UInt8.size]
        omega
      have hsmall : 2 ^ k < 2 ^ 8 := hmask ▸ mask.toNat_lt
      rw [if_neg (by decide), UInt8.toNat_and, hnot, Nat.testBit_and,
        Nat.testBit_two_pow_sub_succ hsmall, Nat.testBit_two_pow]
      by_cases hik : i = k
      · simp [hik]
      · simp [hik, Ne.symm hik, hi]

/-- An assignment replaces the bit at its offset and no other one. -/
theorem bit_assign (bits : Bytes) (offset : UInt64) (on : Bool) (place : Nat) :
    bit (assign bits offset on) place = if place = offset.toNat then on else bit bits place := by
  rw [bit, getD_assign]
  by_cases hbyte : byteOf offset = place / 8
  · rw [if_pos hbyte, testBit_masked _ _ (toNat_maskOf offset) on _ (by omega), bit]
    have hsame : 7 - place % 8 = 7 - offset.toNat % 8 ↔ place = offset.toNat := by
      unfold byteOf at hbyte
      omega
    simp only [hsame]
  · have hne : place ≠ offset.toNat := by
      rintro rfl
      exact hbyte rfl
    rw [if_neg hbyte, if_neg hne, bit]

/-! ## Counting -/

/-- The ones of a byte, its highest bit first. -/
theorem ones_eq_countP (byte : UInt8) :
    ones byte = (List.range 8).countP fun i => byte.toNat.testBit (7 - i) := by
  have hreverse : (List.range 8).map (7 - ·) = (List.range 8).reverse := by rfl
  calc
    ones byte = (List.range 8).reverse.countP fun i => byte.toNat.testBit i :=
      List.countP_reverse.symm
    _ = (List.range 8).countP fun i => byte.toNat.testBit (7 - i) := by
      rw [← hreverse, List.countP_map]
      rfl

theorem count_cons (byte : UInt8) (bits : Bytes) : count (byte :: bits) = ones byte + count bits := by
  have hshift : ∀ (bits : Bytes) (total : Nat),
      bits.foldl (fun total byte => total + ones byte) total = total + count bits := by
    intro bits
    induction bits with
    | nil => exact fun _ => rfl
    | cons byte bits ih =>
        intro total
        rw [count, List.foldl_cons, List.foldl_cons, ih, ih]
        omega
  rw [count, List.foldl_cons, hshift]
  omega

/-- The ones of a bitmap are counted along its vector. -/
theorem count_eq_countP (bits : Bytes) :
    count bits = (List.range (8 * bits.length)).countP (bit bits) := by
  induction bits with
  | nil => rfl
  | cons byte bits ih =>
      have hlength : 8 * (byte :: bits).length = 8 + 8 * bits.length := by
        rw [List.length_cons]
        omega
      have hfirst : ∀ i ∈ List.range 8, byte.toNat.testBit (7 - i) = bit (byte :: bits) i := by
        intro i hi
        have hi : i < 8 := List.mem_range.mp hi
        rw [bit, Nat.div_eq_of_lt hi, Nat.mod_eq_of_lt hi]
        rfl
      have hrest : (bit (byte :: bits) ∘ fun i => 8 + i) = bit bits := by
        funext i
        have hdiv : (8 + i) / 8 = i / 8 + 1 := by omega
        have hmod : (8 + i) % 8 = i % 8 := by omega
        simp only [Function.comp_apply, bit, hdiv, hmod, List.getD_cons_succ]
      rw [count_cons, ih, hlength, List.range_add, List.countP_append, List.countP_map, hrest,
        ones_eq_countP, List.countP_congr fun i hi => by rw [hfirst i hi]]

/-- The zeros past the end do not count. -/
theorem countP_bit_of_le {bits : Bytes} {places : Nat} (h : 8 * bits.length ≤ places) :
    (List.range places).countP (bit bits) = count bits := by
  obtain ⟨more, rfl⟩ := Nat.exists_eq_add_of_le h
  have hzeros : ((List.range more).map (8 * bits.length + ·)).countP (bit bits) = 0 := by
    rw [List.countP_eq_zero]
    intro place hplace
    obtain ⟨i, _, rfl⟩ := List.mem_map.mp hplace
    simp [bit_of_le]
  rw [List.range_add, List.countP_append, hzeros, count_eq_countP, Nat.add_zero]

theorem count_le (bits : Bytes) : count bits ≤ 8 * bits.length := by
  rw [count_eq_countP]
  exact List.countP_le_length.trans (by rw [List.length_range])

/-- Where two vectors differ in one place, their counts differ by what stands
there. -/
theorem countP_range_replace {p q : Nat → Bool} {place : Nat}
    (hsame : ∀ i, i ≠ place → q i = p i) {places : Nat} (hplace : place < places) :
    (List.range places).countP q + (p place).toNat =
      (List.range places).countP p + (q place).toNat := by
  have hone : ∀ (r : Nat → Bool) (i : Nat), [i].countP r = (r i).toNat := by
    intro r i
    cases hr : r i <;> simp [hr]
  induction places with
  | zero => omega
  | succ last ih =>
      rw [List.range_succ, List.countP_append, List.countP_append, hone, hone]
      by_cases hlast : place = last
      · subst hlast
        have hfront : (List.range place).countP q = (List.range place).countP p :=
          List.countP_congr fun i hi => by
            rw [hsame i (Nat.ne_of_lt (List.mem_range.mp hi))]
        omega
      · have hfront := ih (by omega)
        rw [hsame last (Ne.symm hlast)]
        omega

/-- The number of ones changes by what the bit changes. -/
theorem count_assign (bits : Bytes) (offset : UInt64) (on : Bool) :
    count (assign bits offset on) + (bit bits offset.toNat).toNat = count bits + on.toNat := by
  have hplaces : offset.toNat < 8 * (assign bits offset on).length := by
    rw [length_assign]
    unfold byteOf
    omega
  have hsame : ∀ i, i ≠ offset.toNat → bit (assign bits offset on) i = bit bits i := by
    intro i hi
    rw [bit_assign, if_neg hi]
  have hreplace := countP_range_replace hsame hplaces
  rw [← count_eq_countP, countP_bit_of_le (by rw [length_assign]; omega), bit_assign,
    if_pos rfl] at hreplace
  exact hreplace

/-! ## The vector at a key -/

open Engine

variable {table : Table} {key : String} {bits : Bytes}

/-- Whether the reads of a key show the vector with the given bits, with that many
ones, kept in that many bytes. -/
structure Shows (table : Table) (key : String) (bit : UInt64 → Bool) (ones bytes : Nat) :
    Prop where
  getBit : ∀ offset, (getBit key offset).run (ofTable table) = (.ok (bit offset), ofTable table)
  bitCount : ∃ count, (bitCount key).run (ofTable table) = (.ok count, ofTable table) ∧
    count.toNat = ones
  read : ∃ bits, (read key).run (ofTable table) = (.ok bits, ofTable table) ∧ bits.length = bytes

/-- The vector at a key: an absent key has zeros only, and no bytes. -/
inductive Stands (table : Table) (key : String) : (UInt64 → Bool) → Nat → Nat → Prop where
  | absent (h : table.get? (Key.ofText key) = none) : Stands table key (fun _ => false) 0 0
  | present {bit : UInt64 → Bool} {ones bytes : Nat} (h : Shows table key bit ones bytes) :
      Stands table key bit ones bytes

/-- The bytes at a key: an absent key has none. -/
inductive Holds (table : Table) (key : String) : Bytes → Option Instant → Prop where
  | absent (h : table.get? (Key.ofText key) = none) : Holds table key [] none
  | present {bits : Bytes} {expireAt : Option Instant}
      (h : table.HasFrame (Key.ofText key) ⟨.bitmap bits, expireAt⟩) :
      Holds table key bits expireAt

/-- A bitmap that is read from a frame fits one. -/
theorem length_le_of_hasFrame {expireAt : Option Instant}
    (h : table.HasFrame (Key.ofText key) ⟨.bitmap bits, expireAt⟩) : bits.length ≤ maxBytes := by
  obtain ⟨bytes, _, hdecode⟩ := h
  have hencode := Frame.encode_of_decode hdecode (by simp [Value.kind]) (by simp [Value.kind])
  obtain ⟨body, _, hbody, _⟩ := Frame.encode_eq_ok_iff.mp hencode
  have hlength := (FieldReader.prefixedField_eq_ok_iff.mp hbody).1
  unfold maxBytes
  omega

theorem Holds.length_le {expireAt : Option Instant} (h : Holds table key bits expireAt) :
    bits.length ≤ maxBytes := by
  cases h with
  | absent _ => exact Nat.zero_le _
  | present h => exact length_le_of_hasFrame h

/-! ## Reads -/

theorem run_read {expireAt : Option Instant}
    (h : table.HasFrame (Key.ofText key) ⟨.bitmap bits, expireAt⟩) :
    (read key).run (ofTable table) = (.ok bits, ofTable table) := by
  have hget : (Store.getAs key .bitmap).run (ofTable table) = (.ok (.bitmap bits), ofTable table) :=
    run_bind_ok (Store.run_readAs h)
  rw [read, run_bind_ok hget]
  rfl

/-- What a read answers was read from a frame. -/
theorem hasFrame_of_run_read {left : Engine} (h : (read key).run (ofTable table) = (.ok bits, left)) :
    ∃ expireAt, table.HasFrame (Key.ofText key) ⟨.bitmap bits, expireAt⟩ := by
  obtain ⟨outcome, after, hrun, rfl, hframe⟩ := Store.ends_readAs table (Key.ofText key) .bitmap
  cases outcome with
  | error e =>
      have hget : (Store.getAs key .bitmap).run (ofTable after) = (.error e, ofTable after) :=
        run_bind_error hrun
      rw [read, run_bind_error hget] at h
      cases h
  | ok frame =>
      obtain ⟨hframe, hkind⟩ := hframe frame rfl
      have hget : (Store.getAs key .bitmap).run (ofTable after) = (.ok frame.value, ofTable after) :=
        run_bind_ok hrun
      obtain ⟨value, expireAt⟩ := frame
      cases value <;> cases hkind
      rw [read, run_bind_ok hget] at h
      cases h
      exact ⟨expireAt, hframe⟩

/-- The reads of a bitmap show its vector. -/
theorem shows_of_hasFrame {expireAt : Option Instant}
    (h : table.HasFrame (Key.ofText key) ⟨.bitmap bits, expireAt⟩) :
    Shows table key (fun offset => bit bits offset.toNat) (count bits) bits.length := by
  have hread := run_read h
  have hcount : (UInt64.ofNat (count bits)).toNat = count bits := by
    have hle := count_le bits
    have hlength := length_le_of_hasFrame h
    unfold maxBytes at hlength
    rw [UInt64.toNat_ofNat']
    omega
  refine ⟨fun offset => ?_, ⟨_, run_bind_ok hread, hcount⟩, bits, hread, rfl⟩
  rw [← test_eq_bit]
  exact run_bind_ok hread

/-- Behind a vector at a key stand its bytes. -/
theorem Stands.exists_holds {vector : UInt64 → Bool} {ones bytes : Nat}
    (h : Stands table key vector ones bytes) :
    ∃ bits expireAt, Holds table key bits expireAt ∧
      vector = (fun offset => bit bits offset.toNat) ∧ ones = count bits ∧ bytes = bits.length := by
  cases h with
  | absent h => exact ⟨[], none, .absent h, by simp, rfl, rfl⟩
  | present h =>
      obtain ⟨bits, hread, hbytes⟩ := h.read
      obtain ⟨expireAt, hframe⟩ := hasFrame_of_run_read hread
      have hshows := shows_of_hasFrame hframe
      obtain ⟨found, hfound, hones⟩ := h.bitCount
      obtain ⟨found', hfound', hones'⟩ := hshows.bitCount
      rw [hfound] at hfound'
      cases hfound'
      refine ⟨bits, expireAt, .present hframe, ?_, hones.symm.trans hones', hbytes.symm⟩
      funext offset
      have hsame := (h.getBit offset).symm.trans (hshows.getBit offset)
      exact Except.ok.inj (Prod.mk.inj hsame).1

/-! ## Setting a bit -/

/-- A bit within the limit is set: the frame is written with the expiry it had. -/
theorem run_setBit {expireAt : Option Instant} (h : Holds table key bits expireAt)
    {offset : UInt64} (hoffset : byteOf offset < maxBytes) (on : Bool) :
    ∃ after, (setBit key offset on).run (ofTable table) =
        (.ok (bit bits offset.toNat), ofTable after) ∧
      after.HasFrame (Key.ofText key) ⟨.bitmap (assign bits offset on), expireAt⟩ := by
  have hlength := h.length_le
  have hfits : (assign bits offset on).length < 4294967296 := by
    rw [length_assign]
    unfold maxBytes at hlength hoffset
    omega
  have hpayload : Frame.payload (.bitmap (assign bits offset on)) = .ok _ :=
    FieldReader.prefixedField_eq_ok_iff.mpr ⟨hfits, rfl⟩
  have hstored : Frame.asStored expireAt = expireAt := by
    cases h with
    | absent _ => rfl
    | present h => exact h.asStored_expireAt
  obtain ⟨contents, hencode⟩ := Frame.exists_encode hpayload hstored
  refine ⟨_, ?_, .insert table (Key.ofText key) hencode trivial hstored⟩
  rw [setBit, if_neg (Nat.not_le.mpr hoffset)]
  cases h with
  | absent h =>
      rw [Store.update, run_bind_ok (Store.run_read_none h)]
      simp only [Option.map_none, Option.bind_none, bit_nil]
      exact run_bind_ok (Store.run_write hencode)
  | present h =>
      rw [Store.update, run_bind_ok (Store.run_read h)]
      simp only [Option.map_some, Option.bind_some, test_eq_bit]
      exact run_bind_ok (Store.run_write hencode)

/-- A bitmap is an infinite vector of bits.  Setting one within the limit answers
what it was, and then the reads show a vector in which this bit is replaced, with
as many ones more or less, in the bytes it needs; beyond the limit nothing
happens. -/
theorem setBit_replaces_bit {vector : UInt64 → Bool} {ones bytes : Nat}
    (h : Stands table key vector ones bytes) (offset : UInt64) (on : Bool) :
    (byteOf offset < maxBytes → ∃ after ones',
      (setBit key offset on).run (ofTable table) = (.ok (vector offset), ofTable after) ∧
      Shows after key (Function.update vector offset on) ones' (max bytes (byteOf offset + 1)) ∧
      ones' + (vector offset).toNat = ones + on.toNat) ∧
    (maxBytes ≤ byteOf offset →
      (setBit key offset on).run (ofTable table) = (.error .outOfRange, ofTable table)) := by
  constructor
  · intro hoffset
    obtain ⟨bits, expireAt, hholds, rfl, rfl, rfl⟩ := h.exists_holds
    obtain ⟨after, hrun, hframe⟩ := run_setBit hholds hoffset on
    have hshows := shows_of_hasFrame hframe
    have hvector : (fun other : UInt64 => bit (assign bits offset on) other.toNat) =
        Function.update (fun other : UInt64 => bit bits other.toNat) offset on := by
      funext other
      rw [bit_assign, Function.update_apply]
      simp only [UInt64.toNat_inj]
    rw [hvector, length_assign] at hshows
    exact ⟨after, _, hrun, hshows, count_assign bits offset on⟩
  · intro hoffset
    rw [setBit, if_pos hoffset]
    rfl

/-- A bitmap of one byte whose eleventh bit is set has two bytes. -/
theorem setBit_replaces_bit_longer :
    let table := Table.empty.insert [0x62] [0x18, 1, 0, 0, 0, 0x80, 0, 0, 0, 0, 0, 0, 0, 0]
    let vector : UInt64 → Bool := fun offset => bit [0x80] offset.toNat
    Stands table "b" vector 1 1 ∧ vector 0 = true ∧ ∃ after,
      (setBit "b" 10 true).run (ofTable table) = (.ok false, ofTable after) ∧
      Shows after "b" (Function.update vector 10 true) 2 2 := by
  intro table vector
  have hframe : table.HasFrame (Key.ofText "b") ⟨.bitmap [0x80], none⟩ := by decide +kernel
  have hstands : Stands table "b" vector 1 1 := .present (shows_of_hasFrame hframe)
  obtain ⟨after, ones, hrun, hshows, hones⟩ :=
    (setBit_replaces_bit hstands 10 true).1 (by decide)
  have htwo : ones = 2 := hones
  subst htwo
  exact ⟨hstands, rfl, after, hrun, hshows⟩

end StructuredStore.Bitmap

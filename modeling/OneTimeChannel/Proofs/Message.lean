/-
  The wire form of messages, byte by byte.

  A message is known by its bytes once the length of its tag is known: for every length `t`, writing is
  one-to-one from the messages with tags of that length onto the byte strings with at least `20 + t`
  bytes, and reading is its inverse (`toWire_bijOn`).  The two halves stand beside the definitions, as
  `ofWire_toWire` and `ofWire_eq_ok_iff`.

  What a reader finds in a header is said without the reader (`Header.Describes`): a number is the sum of
  its bytes, each with its weight, and a flag is a binary digit of byte 8.  That the reader finds just this
  comes from two facts, one about numbers (`field_eq_numberAt`) and one about flags (`has_eq_testBit`).
  Nothing is assumed of bits 3 and 4 of byte 8, which mean nothing.
-/
import OneTimeChannel.Message
import Mathlib.Algebra.BigOperators.Intervals
import Mathlib.Algebra.BigOperators.Ring.Finset
import Mathlib.Data.Nat.Bitwise
import Mathlib.Data.Set.Function
import Mathlib.Tactic.Ring

namespace OneTimeChannel

/-! ## Numbers -/

/-- The number that stands in the `width` bytes from `offset` on, the first of them worth most. -/
def numberAt (bytes : Bytes) (offset width : Nat) : Nat :=
  ∑ i ∈ Finset.range width, (bytes.getD (offset + i) 0).toNat * 256 ^ (width - 1 - i)

example : numberAt [9, 1, 2, 3, 4, 9] 1 4 = 0x01020304 := by decide

theorem LittleEndian.toNat_eq_sum (bs : Bytes) :
    LittleEndian.toNat bs = ∑ i ∈ Finset.range bs.length, (bs.getD i 0).toNat * 256 ^ i := by
  induction bs with
  | nil => rfl
  | cons b bs ih =>
    rw [LittleEndian.toNat, ih, List.length_cons, Finset.sum_range_succ', Finset.mul_sum, Nat.add_comm]
    congr 1
    · refine Finset.sum_congr rfl fun i _ => ?_
      rw [List.getD_cons_succ, pow_succ]
      ring
    · rw [List.getD_cons_zero, pow_zero, mul_one]

theorem BigEndian.toNat_eq_sum (bs : Bytes) :
    BigEndian.toNat bs
      = ∑ i ∈ Finset.range bs.length, (bs.getD i 0).toNat * 256 ^ (bs.length - 1 - i) := by
  rw [BigEndian.toNat, LittleEndian.toNat_eq_sum, List.length_reverse,
    ← Finset.sum_range_reflect _ bs.length]
  refine Finset.sum_congr rfl fun i hi => ?_
  have hlt : i < bs.length := Finset.mem_range.1 hi
  have hback : bs.length - 1 - (bs.length - 1 - i) = i := by omega
  have hget : bs.reverse.getD (bs.length - 1 - i) 0 = bs.getD i 0 := by
    rw [List.getD_eq_getElem?_getD, List.getElem?_reverse (by omega), hback,
      List.getD_eq_getElem?_getD]
  rw [hget]

namespace Header

/-- Reading a field that is there gives the number that stands in it. -/
theorem field_eq_numberAt {bytes : Bytes} {offset width : Nat} (h : offset + width ≤ bytes.length) :
    field bytes offset width = numberAt bytes offset width := by
  have hlength : ((bytes.drop offset).take width).length = width := by
    rw [List.length_take, List.length_drop]
    omega
  rw [field, BigEndian.toNat_eq_sum, hlength, numberAt]
  refine Finset.sum_congr rfl fun i hi => ?_
  have hget : ((bytes.drop offset).take width).getD i 0 = bytes.getD (offset + i) 0 := by
    rw [List.getD_eq_getElem?_getD, List.getElem?_take_of_lt (Finset.mem_range.1 hi),
      List.getElem?_drop, List.getD_eq_getElem?_getD]
  rw [hget]

end Header

/-! ## Flags -/

/-- The binary digit of the flags that says whether a flag is set. -/
def Flag.position : Flag → Nat
  | encrypted => 0
  | authentic => 1
  | compressed => 2

namespace Header

/-- A flag is set if its digit is 1, whatever the others are. -/
theorem has_eq_testBit (h : Header) (f : Flag) : h.has f = h.flags.toNat.testBit f.position := by
  have hmask : f.mask.toNat = 2 ^ f.position := by cases f <;> rfl
  have hand : (h.flags &&& f.mask).toNat = (h.flags.toNat.testBit f.position).toNat * 2 ^ f.position := by
    rw [UInt8.toNat_and, hmask, Nat.and_two_pow]
  have hpos : 0 < 2 ^ f.position := Nat.two_pow_pos _
  rw [has, Bool.eq_iff_iff, bne_iff_ne, ne_eq, ← UInt8.toNat_inj, hand]
  cases h.flags.toNat.testBit f.position
  · simp
  · simp

/-- The version is what is left of the flags without their five lowest digits. -/
theorem toNat_version (h : Header) : h.version.toNat = h.flags.toNat / 2 ^ 5 := by
  rw [version, UInt8.toNat_shiftRight, Nat.shiftRight_eq_div_pow]
  rfl

/-! ## Layout -/

/-- Only the first twenty bytes make a header. -/
theorem ofBytes_take (bytes : Bytes) : ofBytes (bytes.take headerSize) = ofBytes bytes := by
  have hfield : ∀ offset width, offset + width ≤ 20 →
      field (bytes.take headerSize) offset width = field bytes offset width := by
    intro offset width hle
    rw [field, field, headerSize, List.drop_take, List.take_take, Nat.min_eq_left (by omega)]
  rw [ofBytes, ofBytes, hfield 0 4 (by decide), hfield 4 4 (by decide), hfield 8 1 (by decide),
    hfield 9 1 (by decide), hfield 10 2 (by decide), hfield 12 4 (by decide), hfield 16 4 (by decide)]

/-- A header says what the first twenty bytes of a byte string say, field by field. -/
structure Describes (h : Header) (bytes : Bytes) : Prop where
  length_eq : h.length.toNat = numberAt bytes 0 4
  messageId_eq : h.messageId.toNat = numberAt bytes 4 4
  has_eq : ∀ f, h.has f = (numberAt bytes 8 1).testBit f.position
  version_eq : h.version.toNat = numberAt bytes 8 1 / 2 ^ 5
  command_eq : h.command.toNat = numberAt bytes 9 1
  channelId_eq : h.channelId.toNat = numberAt bytes 10 2
  encryptionKeyId_eq : h.encryptionKeyId.toNat = numberAt bytes 12 4
  authenticationKeyId_eq : h.authenticationKeyId.toNat = numberAt bytes 16 4

/-- A header that is read from a byte string describes it. -/
theorem describes_ofBytes {bytes : Bytes} (h : headerSize ≤ bytes.length) :
    (ofBytes bytes).Describes bytes := by
  have hfield : ∀ offset width, offset + width ≤ 20 →
      field bytes offset width = numberAt bytes offset width := by
    intro offset width hle
    exact field_eq_numberAt (Nat.le_trans hle h)
  have hflags : (ofBytes bytes).flags.toNat = numberAt bytes 8 1 := by
    rw [← hfield 8 1 (by decide)]
    exact UInt8.toNat_ofNat_of_lt' (field_lt bytes 8 1)
  constructor
  · rw [← hfield 0 4 (by decide)]
    exact UInt32.toNat_ofNat_of_lt' (field_lt bytes 0 4)
  · rw [← hfield 4 4 (by decide)]
    exact UInt32.toNat_ofNat_of_lt' (field_lt bytes 4 4)
  · intro f
    rw [has_eq_testBit, hflags]
  · rw [toNat_version, hflags]
  · rw [← hfield 9 1 (by decide)]
    exact UInt8.toNat_ofNat_of_lt' (field_lt bytes 9 1)
  · rw [← hfield 10 2 (by decide)]
    exact UInt16.toNat_ofNat_of_lt' (field_lt bytes 10 2)
  · rw [← hfield 12 4 (by decide)]
    exact UInt32.toNat_ofNat_of_lt' (field_lt bytes 12 4)
  · rw [← hfield 16 4 (by decide)]
    exact UInt32.toNat_ofNat_of_lt' (field_lt bytes 16 4)

end Header

/-! ## Messages -/

namespace Message

/-- A message is a byte string, cut twenty bytes after its start and `tagLength` bytes before its end. -/
structure Cuts (m : Message) (bytes : Bytes) (tagLength : Nat) : Prop where
  toWire_eq : m.toWire = bytes
  header_describes : m.header.Describes bytes
  payload_eq : m.payload = (bytes.drop headerSize).take (bytes.length - (headerSize + tagLength))
  tag_eq : m.tag = bytes.drop (bytes.length - tagLength)

/-- The header of a message is found in its bytes. -/
theorem describes_toWire (m : Message) : m.header.Describes m.toWire := by
  have hread : Header.ofBytes m.toWire = m.header := by
    rw [← Header.ofBytes_take, toWire, ← m.header.length_toBytes, List.take_left,
      Header.ofBytes_toBytes]
  have hlength : headerSize ≤ m.toWire.length := by
    rw [length_toWire, encodedLength]
    omega
  have h := Header.describes_ofBytes hlength
  rwa [hread] at h

/-- What is on the wire is cut as it was put together. -/
theorem cuts_toWire (m : Message) : m.Cuts m.toWire m.tag.length := by
  have hlength : m.toWire.length = headerSize + m.payload.length + m.tag.length := m.length_toWire
  have hbody : m.toWire.drop headerSize = m.payload ++ m.tag := by
    rw [toWire, ← m.header.length_toBytes, List.drop_left]
  constructor
  · rfl
  · exact m.describes_toWire
  · have hpayload : m.toWire.length - (headerSize + m.tag.length) = m.payload.length := by omega
    rw [hbody, hpayload, List.take_left]
  · have htag : m.toWire.length - m.tag.length = headerSize + m.payload.length := by omega
    rw [htag, ← List.drop_drop, hbody, List.drop_left]

/-- Reading succeeds on enough bytes, and fails on no others. -/
theorem exists_ofWire_eq_ok_iff {bytes : Bytes} {tagLength : Nat} :
    (∃ m, ofWire bytes tagLength = .ok m) ↔ headerSize + tagLength ≤ bytes.length := by
  constructor
  · rintro ⟨m, hread⟩
    by_contra hshort
    rw [ofWire_eq_error_iff.2 ⟨Nat.not_le.1 hshort, rfl⟩] at hread
    cases hread
  · intro hlong
    match h : ofWire bytes tagLength with
    | .ok m => exact ⟨m, rfl⟩
    | .error e => exact absurd (ofWire_eq_error_iff.1 h).1 (Nat.not_lt.2 hlong)

/-- What is read is the byte string, cut. -/
theorem ofWire_eq_ok_iff_cuts {bytes : Bytes} {tagLength : Nat} {m : Message} :
    ofWire bytes tagLength = .ok m ↔ headerSize + tagLength ≤ bytes.length ∧ m.Cuts bytes tagLength := by
  constructor
  · intro hread
    refine ⟨exists_ofWire_eq_ok_iff.1 ⟨m, hread⟩, ?_⟩
    obtain ⟨rfl, rfl⟩ := ofWire_eq_ok_iff.1 hread
    exact m.cuts_toWire
  · rintro ⟨hlong, hcuts⟩
    refine ofWire_eq_ok_iff.2 ⟨hcuts.toWire_eq, ?_⟩
    rw [hcuts.tag_eq, List.length_drop]
    omega

/-- Writing is one-to-one from the messages with tags of one length onto the byte strings that are long
    enough. -/
theorem toWire_bijOn (tagLength : Nat) :
    Set.BijOn toWire {m | m.tag.length = tagLength} {bytes | headerSize + tagLength ≤ bytes.length} := by
  refine ⟨?_, ?_, ?_⟩
  · intro m hm
    have htag : m.tag.length = tagLength := hm
    show headerSize + tagLength ≤ m.toWire.length
    rw [length_toWire, encodedLength]
    omega
  · intro m hm m' hm' heq
    have hread : ofWire m.toWire tagLength = .ok m := ofWire_eq_ok_iff.2 ⟨rfl, hm⟩
    have hread' : ofWire m.toWire tagLength = .ok m' := ofWire_eq_ok_iff.2 ⟨heq.symm, hm'⟩
    exact Except.ok.inj (hread.symm.trans hread')
  · intro bytes hlong
    show ∃ m : Message, m.tag.length = tagLength ∧ m.toWire = bytes
    obtain ⟨m, hread⟩ := exists_ofWire_eq_ok_iff.2 hlong
    obtain ⟨hwire, htag⟩ := ofWire_eq_ok_iff.1 hread
    exact ⟨m, htag, hwire⟩

/-- The wire form is one-to-one.  A message is read back from its bytes by who knows the length of its
    tag.  Reading a byte string succeeds if it has room for a header and the tag, and on no other; what is
    read is then the byte string cut into header, payload and tag, with the fields of the header at their
    places, and writing it gives the byte string again. -/
theorem wire_bijective :
    (∀ m : Message, ofWire m.toWire m.tag.length = .ok m)
      ∧ ∀ (bytes : Bytes) (tagLength : Nat),
        ((∃ m, ofWire bytes tagLength = .ok m) ↔ headerSize + tagLength ≤ bytes.length)
          ∧ (∀ m, ofWire bytes tagLength = .ok m ↔
              headerSize + tagLength ≤ bytes.length ∧ m.Cuts bytes tagLength)
          ∧ Set.BijOn toWire {m | m.tag.length = tagLength}
              {bytes | headerSize + tagLength ≤ bytes.length} := by
  refine ⟨ofWire_toWire, ?_⟩
  intro bytes tagLength
  refine ⟨exists_ofWire_eq_ok_iff, ?_, toWire_bijOn tagLength⟩
  intro m
  exact ofWire_eq_ok_iff_cuts

end Message

end OneTimeChannel

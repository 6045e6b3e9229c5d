/-
  Messages as they go over the wire.

  A message is a header of twenty bytes, the payload and the authentication tag, in this order.
  Numbers in the header have their highest byte first:

      offset 0   4 bytes   length of the whole message, header and tag included
      offset 4   4 bytes   message id
      offset 8   1 byte    flags: bit 0 encrypted, bit 1 authentic, bit 2 compressed,
                           bits 5 to 7 the version; bits 3 and 4 are kept and mean nothing
      offset 9   1 byte    command
      offset 10  2 bytes   channel id
      offset 12  4 bytes   encryption key id
      offset 16  4 bytes   authentication key id

  The fields fill the header without a gap, so each string of twenty bytes is exactly one header
  (`ofBytes_toBytes`, `toBytes_ofBytes`).  Nothing in a message says where the payload ends and the
  tag begins: who reads one has to know the length of the tag.

  Core only.
-/
import OneTimeChannel.Bytes

namespace OneTimeChannel

/-! ## Headers -/

/-- The bytes of a header. -/
def headerSize : Nat := 20

/-- The version that is written and expected. -/
def protocolVersion : UInt8 := 1

/-- What the flags say about the rest of a message. -/
inductive Flag where
  | encrypted
  | authentic
  | compressed
  deriving DecidableEq, Repr

/-- The bit of a flag. -/
def Flag.mask : Flag → UInt8
  | encrypted => 1
  | authentic => 2
  | compressed => 4

/-- The header of a message. -/
structure Header where
  length : UInt32 := 0
  messageId : UInt32 := 0
  /-- The flags and the version. -/
  flags : UInt8 := protocolVersion <<< 5
  command : UInt8 := 0
  channelId : UInt16 := 0
  encryptionKeyId : UInt32 := 0
  authenticationKeyId : UInt32 := 0
  deriving DecidableEq, Repr

namespace Header

/-- Whether a flag is set. -/
def has (h : Header) (f : Flag) : Bool := h.flags &&& f.mask != 0

/-- Sets or clears a flag. -/
def setFlag (h : Header) (f : Flag) (on : Bool) : Header :=
  { h with flags := if on then h.flags ||| f.mask else h.flags &&& ~~~f.mask }

def version (h : Header) : UInt8 := h.flags >>> 5

/-- Sets the version, of which there are eight. -/
def setVersion (h : Header) (version : UInt8) : Header :=
  { h with flags := (h.flags &&& (31 : UInt8)) ||| ((version &&& (7 : UInt8)) <<< (5 : UInt8)) }

/-- The header as text. -/
def description (h : Header) : String :=
  s!"Header \x7b length: {h.length}, message_id: {h.messageId}, encrypted: {h.has .encrypted}, " ++
    s!"authentic: {h.has .authentic}, compressed: {h.has .compressed}, version: {h.version}, " ++
    s!"command: {h.command}, channel_id: {h.channelId}, " ++
    s!"encryption_key_id: {h.encryptionKeyId}, authentication_key_id: {h.authenticationKeyId} \x7d"

/-! ## The wire form of headers -/

def toBytes (h : Header) : Bytes :=
  BigEndian.ofNat 4 h.length.toNat ++ (BigEndian.ofNat 4 h.messageId.toNat
    ++ (BigEndian.ofNat 1 h.flags.toNat ++ (BigEndian.ofNat 1 h.command.toNat
    ++ (BigEndian.ofNat 2 h.channelId.toNat ++ (BigEndian.ofNat 4 h.encryptionKeyId.toNat
    ++ BigEndian.ofNat 4 h.authenticationKeyId.toNat)))))

/-- The number that `width` bytes from `offset` on stand for. -/
def field (bs : Bytes) (offset width : Nat) : Nat := BigEndian.toNat ((bs.drop offset).take width)

/-- The header at the start of a byte string; bytes that are missing count as nothing. -/
def ofBytes (bs : Bytes) : Header where
  length := UInt32.ofNat (field bs 0 4)
  messageId := UInt32.ofNat (field bs 4 4)
  flags := UInt8.ofNat (field bs 8 1)
  command := UInt8.ofNat (field bs 9 1)
  channelId := UInt16.ofNat (field bs 10 2)
  encryptionKeyId := UInt32.ofNat (field bs 12 4)
  authenticationKeyId := UInt32.ofNat (field bs 16 4)

@[simp] theorem length_toBytes (h : Header) : h.toBytes.length = headerSize := by
  simp [toBytes, headerSize]

theorem field_append (width n : Nat) (rest : Bytes) :
    field (BigEndian.ofNat width n ++ rest) 0 width = n % (1 <<< (8 * width)) := by
  have hw : (BigEndian.ofNat width n).length = width := BigEndian.length_ofNat width n
  rw [field, List.drop_zero, List.take_left' hw, BigEndian.toNat_ofNat]

theorem field_ofNat (width n : Nat) :
    field (BigEndian.ofNat width n) 0 width = n % (1 <<< (8 * width)) := by
  simpa using field_append width n []

theorem field_append_of_le {width offset : Nat} (h : width ≤ offset) (n k : Nat) (rest : Bytes) :
    field (BigEndian.ofNat width n ++ rest) offset k = field rest (offset - width) k := by
  have hw : (BigEndian.ofNat width n).length ≤ offset := by simpa using h
  rw [field, field, List.drop_append, List.drop_eq_nil_of_le hw, BigEndian.length_ofNat,
    List.nil_append]

/-- A header is read back from its wire form. -/
theorem ofBytes_toBytes (h : Header) : ofBytes h.toBytes = h := by
  simp [ofBytes, toBytes, field_append, field_append_of_le, field_ofNat]

theorem toBytes_injective : Function.Injective toBytes := Function.LeftInverse.injective ofBytes_toBytes

theorem ofNat_field {bs : Bytes} {offset width : Nat} (h : offset + width ≤ bs.length) :
    BigEndian.ofNat width (field bs offset width) = (bs.drop offset).take width := by
  have hlen : ((bs.drop offset).take width).length = width := by
    simp only [List.length_take, List.length_drop]
    omega
  have hread := BigEndian.ofNat_toNat ((bs.drop offset).take width)
  rwa [hlen] at hread

theorem field_lt (bs : Bytes) (offset width : Nat) :
    field bs offset width < 1 <<< (8 * width) := by
  have hlt := BigEndian.toNat_lt ((bs.drop offset).take width)
  have hle := Nat.mul_le_mul_left 8 (List.length_take_le width (bs.drop offset))
  rw [Nat.one_shiftLeft] at hlt ⊢
  exact Nat.lt_of_lt_of_le hlt (Nat.pow_le_pow_right (by decide) hle)

/-- Each string of twenty bytes is the wire form of the header read from it. -/
theorem toBytes_ofBytes {bs : Bytes} (h : bs.length = headerSize) : (ofBytes bs).toBytes = bs := by
  rw [headerSize] at h
  have e4 : ∀ offset, offset + 4 ≤ 20 →
      BigEndian.ofNat 4 (UInt32.ofNat (field bs offset 4)).toNat = (bs.drop offset).take 4 := by
    intro offset ho
    rw [UInt32.toNat_ofNat_of_lt' (field_lt bs offset 4), ofNat_field (by omega)]
  have e2 : BigEndian.ofNat 2 (UInt16.ofNat (field bs 10 2)).toNat = (bs.drop 10).take 2 := by
    rw [UInt16.toNat_ofNat_of_lt' (field_lt bs 10 2), ofNat_field (by omega)]
  have e1 : ∀ offset, offset + 1 ≤ 20 →
      BigEndian.ofNat 1 (UInt8.ofNat (field bs offset 1)).toNat = (bs.drop offset).take 1 := by
    intro offset ho
    rw [UInt8.toNat_ofNat_of_lt' (field_lt bs offset 1), ofNat_field (by omega)]
  have join : ∀ i k, (bs.drop i).take k ++ bs.drop (i + k) = bs.drop i := by
    intro i k
    rw [← List.drop_drop, List.take_append_drop]
  have last : (bs.drop 16).take 4 = bs.drop 16 :=
    List.take_of_length_le (by simp only [List.length_drop]; omega)
  simp only [toBytes, ofBytes]
  rw [e4 0 (by decide), e4 4 (by decide), e1 8 (by decide), e1 9 (by decide), e2,
    e4 12 (by decide), e4 16 (by decide), last, join 12 4, join 10 2, join 9 1, join 8 1, join 4 4,
    join 0 4, List.drop_zero]

end Header

/-! ## Messages -/

/-- A message. -/
structure Message where
  header : Header := {}
  payload : Bytes := []
  tag : Bytes := []
  deriving DecidableEq, Repr

/-- A byte string is too short to hold a header and a tag. -/
structure SizeMismatch where
  required : Nat
  actual : Nat
  deriving DecidableEq, Repr

def SizeMismatch.message (e : SizeMismatch) : String :=
  s!"buffer size mismatch, required {e.required} but found {e.actual}"

namespace Message

/-- A message that a channel can encode. -/
def ofPayload (command : UInt8) (payload : Bytes) : Message where
  header := { command, length := UInt32.ofNat (headerSize + payload.length) }
  payload

/-- The message with the wish to have it encrypted, or not. -/
def withEncryption (m : Message) (encrypt : Bool) : Message :=
  { m with header := m.header.setFlag .encrypted encrypt }

/-- The bytes of the message on the wire. -/
def encodedLength (m : Message) : Nat := headerSize + m.payload.length + m.tag.length

/-- Whether the length in the header is the length of the message. -/
def isLengthConsistent (m : Message) : Bool := m.header.length.toNat == m.encodedLength

/-- Header, payload and tag. -/
def toWire (m : Message) : Bytes := m.header.toBytes ++ (m.payload ++ m.tag)

/-- Splits a byte string into header, payload and a tag of the given length.  The length in the
    header is left alone. -/
def ofWire (bytes : Bytes) (tagLength : Nat) : Except SizeMismatch Message :=
  if bytes.length < headerSize + tagLength then .error ⟨headerSize + tagLength, bytes.length⟩
  else
    let body := bytes.drop headerSize
    let payloadLength := body.length - tagLength
    .ok {
      header := .ofBytes (bytes.take headerSize)
      payload := body.take payloadLength
      tag := body.drop payloadLength }

@[simp] theorem length_toWire (m : Message) : m.toWire.length = m.encodedLength := by
  simp [toWire, encodedLength, Nat.add_assoc]

/-- Who knows the length of the tag reads a message back from the wire. -/
theorem ofWire_toWire (m : Message) : ofWire m.toWire m.tag.length = .ok m := by
  have hlength : ¬ m.toWire.length < headerSize + m.tag.length := by
    rw [length_toWire, encodedLength]
    omega
  have hbody : m.toWire.drop headerSize = m.payload ++ m.tag := by
    rw [toWire, ← m.header.length_toBytes, List.drop_left]
  have hheader : m.toWire.take headerSize = m.header.toBytes := by
    rw [toWire, ← m.header.length_toBytes, List.take_left]
  rw [ofWire, if_neg hlength]
  simp only [hbody, hheader, Header.ofBytes_toBytes, List.length_append, Nat.add_sub_cancel,
    List.take_left, List.drop_left]

/-- What is read from the wire is what was written there, with a tag of the length that was asked for. -/
theorem ofWire_eq_ok_iff {bytes : Bytes} {tagLength : Nat} {m : Message} :
    ofWire bytes tagLength = .ok m ↔ m.toWire = bytes ∧ m.tag.length = tagLength := by
  constructor
  · intro h
    rw [ofWire] at h
    split at h
    · cases h
    next hlength =>
    cases h
    have htake : (bytes.take headerSize).length = headerSize := by
      rw [List.length_take]
      omega
    constructor
    · simp only [toWire, Header.toBytes_ofBytes htake, List.take_append_drop]
    · simp only [List.length_drop]
      omega
  · rintro ⟨rfl, rfl⟩
    exact ofWire_toWire m

/-- Nothing but too few bytes is in the way of reading. -/
theorem ofWire_eq_error_iff {bytes : Bytes} {tagLength : Nat} {e : SizeMismatch} :
    ofWire bytes tagLength = .error e ↔
      bytes.length < headerSize + tagLength ∧ e = ⟨headerSize + tagLength, bytes.length⟩ := by
  rw [ofWire]
  split
  · next hshort =>
    constructor
    · rintro ⟨⟩
      exact ⟨hshort, rfl⟩
    · rintro ⟨-, rfl⟩
      rfl
  · next hlong => simp [hlong]

end Message

end OneTimeChannel

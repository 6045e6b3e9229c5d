/-
  The length that an encoded message announces.

  The length in the header is fixed before the payload is encrypted, so it is the length of the message
  as it would be if encryption did not change the length of the payload.  A pad that starts without data
  does not change it.  But the context for encryption may be a hash, which makes a tag of whatever it is
  given, or a pad that holds data already, which comes out in front of the payload.  Neither is refused
  when the channel is set up, and a message encrypted with them announces a wrong length, unless a
  payload happens to be as long as the tag of the hash (`encode_announces`).
-/
import OneTimeChannel.Proofs.Channel.Encode
import OneTimeChannel.Proofs.Cipher.Recreation
import OneTimeChannel.Proofs.Keys.Buffer

namespace OneTimeChannel

namespace Algorithm

/-- What the algorithm makes of `n` bytes has `n` bytes. -/
def KeepsLength (a : Algorithm) (n : Nat) : Prop :=
  a = .pad [] ∨ ∃ h, a = .evaluationHash h ∧ h.bytes = n

theorem resultSize_absorbed_eq_iff {a : Algorithm} (h : a.isNull = false) (data : Bytes) :
    (a.absorbed data).resultSize = data.length ↔ a.KeepsLength data.length := by
  cases a with
  | null => cases h
  | pad held =>
    have hsize : ((pad held).absorbed data).resultSize = held.length + data.length :=
      List.length_append
    rw [hsize, KeepsLength]
    constructor
    · intro heq
      have hnil : held = [] := List.eq_nil_of_length_eq_zero (by omega)
      exact Or.inl (by rw [hnil])
    · rintro (heq | ⟨hash, heq, -⟩)
      · cases heq
        simp
      · cases heq
  | evaluationHash hash =>
    have hsize : ((evaluationHash hash).absorbed data).resultSize = hash.bytes := rfl
    rw [hsize, KeepsLength]
    constructor
    · intro heq
      exact Or.inr ⟨hash, rfl, heq⟩
    · rintro (heq | ⟨hash', heq, hbytes⟩)
      · cases heq
      · cases heq
        exact hbytes

end Algorithm

namespace Channel

variable {K : Type}

/-- The context that encrypts outgoing messages. -/
def encrypter (c : Channel K) : Context := c.association.encryptionOutgoing.recreated

variable [KeySource K] {c : Channel K} {m encoded : Message} {d : Draft} {keys keys' : K}

/-- The lengths in a message that comes of a draft. -/
theorem lengths_of_complete (h : d.complete keys = (.ok encoded, keys')) :
    encoded.header.length = d.length
      ∧ encoded.tag.length = d.authentication.resultSize
      ∧ encoded.payload.length
        = (d.encryption.map Context.resultSize).getD d.payload.length := by
  obtain ⟨d', between, hencrypt, hauthenticate⟩ := complete_eq_ok_iff.1 h
  obtain ⟨id, key, tag, -, -, htag, rfl⟩ := authenticate_eq_ok_iff.1 hauthenticate
  rcases encrypt_eq_ok_iff.1 hencrypt with ⟨hnone, rfl, -⟩
    | ⟨context, id', key', hsome, -, -, hkey, rfl⟩
  · exact ⟨rfl, htag, by rw [hnone]; rfl⟩
  · refine ⟨rfl, htag, ?_⟩
    rw [hsome]
    exact Algorithm.length_result hkey

/-- An encoded message announces the length that it has before encryption.  That is its length exactly
    if it is not encrypted, or if encryption keeps the length of the payload. -/
theorem encode_announces (h : (c.encode m).2 = .ok encoded) :
    ∃ packed, c.pack m.payload (c.compresses m c.encrypter) = .ok packed
      ∧ encoded.header.length.toNat = headerSize + packed.length + encoded.tag.length
      ∧ (encoded.isLengthConsistent = true ↔
        (encrypts m c.encrypter = true → c.encrypter.algorithm.KeepsLength packed.length)) := by
  rcases encode_cases c m with ⟨failure, hencode⟩
    | ⟨d, hdraft, -, ⟨failure, keys', -, hencode⟩ | ⟨encoded', keys', hcomplete, hencode⟩⟩
  · rw [hencode] at h
    cases h
  · rw [hencode] at h
    cases h
  rw [hencode] at h
  cases h
  obtain ⟨authentication, encryption, packed, hdrafts, rfl⟩ := draft_eq_ok_iff.1 hdraft
  obtain rfl : c.encrypter = encryption :=
    Except.ok.inj ((c.fresh_eq .encryptionOutgoing).symm.trans hdrafts.encryption_eq)
  obtain ⟨hlength, htag, hpayload⟩ := lengths_of_complete hcomplete
  have hannounced : encoded.header.length.toNat
      = headerSize + packed.length + encoded.tag.length := by
    rw [hlength, htag]
    exact UInt32.toNat_ofNat_of_lt' hdrafts.length_lt
  refine ⟨packed, hdrafts.pack_eq, hannounced, ?_⟩
  have hconsistent : encoded.isLengthConsistent = true ↔ encoded.payload.length = packed.length := by
    rw [Message.isLengthConsistent, beq_iff_eq, hannounced, Message.encodedLength]
    omega
  rw [hconsistent, hpayload]
  by_cases hencrypts : encrypts m c.encrypter = true
  · have hnull : c.encrypter.algorithm.isNull = false := by
      have hboth : m.header.has .encrypted = true ∧ c.encrypter.isNull = false := by
        simpa [encrypts] using hencrypts
      exact hboth.2
    simp only [drafted, hencrypts, if_true, forall_const]
    exact Algorithm.resultSize_absorbed_eq_iff hnull packed
  · simp [drafted, hencrypts]

/-- The definition of an association that encrypts behind three bytes. -/
def threeAhead : AssociationDefinition :=
  { AssociationDefinition.null with encryptionOutgoing := "xor::616263" }

/-- A sender with this association. -/
def senderAhead : Channel KeyBuffer where
  id := 1
  association :=
    (Slots.replicate { algorithm := .null }).set .encryptionOutgoing { algorithm := .pad [97, 98, 99] }
  keys := KeyBuffer.byFour.pushOutgoing (List.replicate 64 42)

def messageAhead : Message := (Message.ofPayload 1 [1, 2, 3, 4]).withEncryption true

/-- What the sender makes of the message: 36 bytes that are announced as 33. -/
def encodedAhead : Message where
  header :=
    { length := 33, messageId := 1, flags := 39, command := 1, channelId := 1, encryptionKeyId := 1 }
  payload := [75, 72, 73, 2, 159, 5, 215, 42, 114, 11, 42, 42, 43, 40, 41, 46]

theorem ofDefinition_threeAhead :
    ofDefinition 1 threeAhead senderAhead.keys = .ok senderAhead := by rfl

theorem encode_messageAhead : (senderAhead.encode messageAhead).2 = .ok encodedAhead := by cbv

theorem encode_announces_messageAhead :
    ∃ packed, senderAhead.pack messageAhead.payload
          (senderAhead.compresses messageAhead senderAhead.encrypter) = .ok packed
      ∧ encodedAhead.header.length.toNat = headerSize + packed.length + encodedAhead.tag.length
      ∧ (encodedAhead.isLengthConsistent = true ↔
        (encrypts messageAhead senderAhead.encrypter = true →
          senderAhead.encrypter.algorithm.KeepsLength packed.length)) :=
  encode_announces encode_messageAhead

/-- Not every message that is encoded has the length that it announces. -/
theorem not_isLengthConsistent_encodedAhead :
    ¬ ∀ (definition : AssociationDefinition) (keys : KeyBuffer) (c : Channel KeyBuffer)
      (m encoded : Message), ofDefinition 1 definition keys = .ok c →
      (c.encode m).2 = .ok encoded → encoded.isLengthConsistent = true := by
  intro h
  have hconsistent := h threeAhead senderAhead.keys senderAhead messageAhead encodedAhead
    ofDefinition_threeAhead encode_messageAhead
  have hlength : encodedAhead.isLengthConsistent = false := by decide
  rw [hlength] at hconsistent
  cases hconsistent

end Channel

end OneTimeChannel

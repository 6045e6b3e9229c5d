/-
  How long a payload can be that is delivered.

  The bound on payloads is looked at in two places: by a sender, before it does anything with a payload,
  and by a receiver, when it expands one.  So a sender keeps the bound with all that it encodes, whether
  it compresses it or not (`plain_of_encode`).  But a receiver expands only what is marked as compressed.
  Of any other message it delivers what decryption makes of the payload, or the payload as it came in,
  however long that is (`openedLength`), and what comes in is bounded by nothing but the 32 bits for the
  length in its header.  Hence a delivered payload keeps the bound exactly if its message is marked as
  compressed or happens to be short enough (`delivered_bounded_iff`).  Where no tags are asked for,
  anybody can send a message that is neither (`Unprotected.decode_eq`).
-/
import OneTimeChannel.Proofs.Channel.Delivery
import OneTimeChannel.Proofs.Channel.KeyUse

namespace OneTimeChannel.Channel

variable {K : Type} {c : Channel K} {m o : Message}

/-! ## What comes out of the stages -/

/-- How long the payload of a message is once it is decrypted. -/
def openedLength (c : Channel K) (m : Message) : Nat :=
  if m.header.has .encrypted then (c.decrypter.absorbed m.payload).resultSize else m.payload.length

/-- What is expanded keeps the bound, and what is not stays as it is. -/
theorem length_of_expand {header : Header} {payload content : Bytes}
    (h : c.expand header payload = .ok content) :
    (header.has .compressed = true → content.length ≤ maxPayload)
      ∧ (header.has .compressed = false → content = payload) := by
  rw [expand] at h
  split at h
  · next hcompressed =>
    split at h
    · next unpacked _ =>
      split at h
      · cases h
      · next hlength =>
        cases h
        exact ⟨fun _ => Nat.not_lt.1 hlength, fun hplain => absurd hcompressed (by simp [hplain])⟩
    · cases h
  · next hplain =>
    cases h
    exact ⟨fun hcompressed => absurd hcompressed hplain, fun _ => rfl⟩

variable [KeySource K]

/-- The length of what is decrypted does not depend on the key. -/
theorem length_of_decrypt {keys keys' : K} {payload : Bytes}
    (h : decrypt m (examined m c.verifier c.decrypter) keys = (.ok payload, keys')) :
    payload.length = c.openedLength m := by
  rw [openedLength]
  rcases decrypt_eq_ok_iff.1 h with ⟨hnone, rfl, -⟩ | ⟨context, key, hsome, -, -, hkey, rfl⟩
  · split
    · next hflag => simp [examined, hflag] at hnone
    · rfl
  · split
    · next hflag =>
      obtain rfl : c.decrypter.absorbed m.payload = context := by simpa [examined, hflag] using hsome
      exact Algorithm.length_result hkey
    · next hflag => simp [examined, hflag] at hsome

/-- A delivered payload keeps the bound if it was compressed, and has the length of the opened one
    otherwise. -/
theorem length_of_decode (h : (c.decode m).2 = .ok o) :
    (m.header.has .compressed = true → o.payload.length ≤ maxPayload)
      ∧ (m.header.has .compressed = false → o.payload.length = c.openedLength m) := by
  obtain ⟨e, hexamine, -, hopened⟩ := stages_of_decode_eq_ok h
  obtain rfl : examined m c.verifier c.decrypter = e := Except.ok.inj
    ((examine_of_not_turnedAway (not_turnedAway_of_examine hexamine)).symm.trans hexamine)
  obtain ⟨verified, payload, content, -, hdecrypt, hexpand, rfl⟩ := opened_eq_ok_iff.1 hopened
  obtain ⟨hbound, hsame⟩ := length_of_expand hexpand
  refine ⟨hbound, ?_⟩
  intro hplain
  rw [hsame hplain]
  exact length_of_decrypt hdecrypt

/-! ## What senders send -/

/-- What is completed is completed with two keys, whatever source they are from. -/
theorem exists_completed_of_complete {d : Draft} {encoded : Message} {keys keys' : K}
    (h : d.complete keys = (.ok encoded, keys')) : ∃ e a, encoded = d.completed e a := by
  obtain ⟨d', between, hencrypt, hauthenticate⟩ := complete_eq_ok_iff.1 h
  obtain ⟨id, key, tag, -, htag, -, rfl⟩ := authenticate_eq_ok_iff.1 hauthenticate
  obtain ⟨-, -, rfl⟩ := accepts_of_tagOf_eq_ok htag
  rcases encrypt_eq_ok_iff.1 hencrypt with ⟨hnone, rfl, -⟩ | ⟨context, id', key', hsome, -, -, -, rfl⟩
  · refine ⟨(0, .empty), (id, key), ?_⟩
    simp only [Draft.completed, Draft.maybeEncrypted, hnone]
  · refine ⟨(id', key'), (id, key), ?_⟩
    simp only [Draft.completed, Draft.maybeEncrypted, hsome, Draft.encrypted]

/-- A sender keeps the bound, and sends a payload as it is unless it compresses it. -/
theorem plain_of_encode {given : Message} (h : (c.encode given).2 = .ok m) :
    given.payload.length ≤ maxPayload
      ∧ (m.header.has .compressed = false →
        m.header.has .encrypted = false ∧ m.payload = given.payload) := by
  rcases encode_cases c given with ⟨failure, hencode⟩
    | ⟨d, hdraft, -, ⟨failure, keys', -, hencode⟩ | ⟨encoded, keys', hcomplete, hencode⟩⟩
  · rw [hencode] at h
    cases h
  · rw [hencode] at h
    cases h
  rw [hencode] at h
  cases h
  obtain ⟨authentication, encryption, payload, hdrafts, rfl⟩ := draft_eq_ok_iff.1 hdraft
  refine ⟨hdrafts.length_le, ?_⟩
  obtain ⟨e, a, rfl⟩ := exists_completed_of_complete hcomplete
  obtain ⟨-, -, hcompressed, hencrypted⟩ :=
    has_wireFlags _ _ _ (flags_completed c given authentication encryption payload e a)
  intro hplain
  -- whatever is encrypted is compressed before
  have hcompresses : c.compresses given encryption = false := hcompressed.symm.trans hplain
  have hencrypts : encrypts given encryption = false := (Bool.or_eq_false_iff.1 hcompresses).2
  have hpack := hdrafts.pack_eq
  rw [pack, if_neg (by simp [hcompresses])] at hpack
  cases hpack
  rw [hencrypted, payload_completed, hencrypts]
  exact ⟨rfl, rfl⟩

/-! ## The bound -/

/-- A delivered payload keeps the bound exactly if its message is marked as compressed or is short
    enough once it is decrypted; in the latter case this is the length that is delivered.  The payload
    of a message that some sender encoded keeps the bound, on both sides. -/
theorem delivered_bounded_iff (h : (c.decode m).2 = .ok o) :
    (o.payload.length ≤ maxPayload
        ↔ m.header.has .compressed = true ∨ c.openedLength m ≤ maxPayload)
      ∧ (m.header.has .compressed = false → o.payload.length = c.openedLength m)
      ∧ ∀ {L : Type} [KeySource L] (sender : Channel L) (given : Message),
        (sender.encode given).2 = .ok m →
          given.payload.length ≤ maxPayload ∧ o.payload.length ≤ maxPayload := by
  obtain ⟨hbound, hopened⟩ := length_of_decode h
  have hiff : o.payload.length ≤ maxPayload
      ↔ m.header.has .compressed = true ∨ c.openedLength m ≤ maxPayload := by
    cases hcompressed : m.header.has .compressed with
    | true => simp [hbound hcompressed]
    | false => simp [hopened hcompressed]
  refine ⟨hiff, hopened, ?_⟩
  intro L _ sender given hencode
  obtain ⟨hgiven, hplain⟩ := plain_of_encode hencode
  refine ⟨hgiven, hiff.2 ?_⟩
  cases hcompressed : m.header.has .compressed with
  | true => exact Or.inl rfl
  | false =>
    obtain ⟨hencrypted, hpayload⟩ := hplain hcompressed
    right
    rwa [openedLength, hencrypted, if_neg Bool.false_ne_true, hpayload]

/-! ## Messages without protection -/

/-- The receiver asks for no tags, and admits a message that has none and is neither encrypted nor
    compressed. -/
structure Unprotected (c : Channel KeyBuffer) (m : Message) : Prop where
  verifier_eq : c.verifier.algorithm = .null
  finalized_eq : c.verifier.finalized = false
  admits : c.admits m = true
  encrypted_eq : m.header.has .encrypted = false
  compressed_eq : m.header.has .compressed = false
  tag_eq : m.tag = []

namespace Unprotected

variable {c : Channel KeyBuffer} (h : c.Unprotected m)
include h

/-- Nothing is there to decrypt the payload with. -/
theorem examine_eq : c.examine m = .ok { authentication := c.verifier, encryption := none } := by
  have hresult : c.verifier.resultSize = 0 := by
    rw [Context.resultSize, h.verifier_eq]
    rfl
  have haway : ¬ c.TurnedAway m := by
    intro haway
    cases haway with
    | badHeader hadmits => simp [h.admits] at hadmits
    | notDecryptable hflag => simp [h.encrypted_eq] at hflag
    | tagLength htag => simp [h.tag_eq, hresult] at htag
    | finalized hflag => simp [h.encrypted_eq] at hflag
  rw [examine_of_not_turnedAway haway, examined, if_neg (by simp [h.encrypted_eq])]

/-- The tag of no bytes is the right one, and takes a key of no bytes. -/
theorem verify_eq : c.verify m { authentication := c.verifier, encryption := none } c.keys
    = (.ok (), c.keys) := by
  have hsealed : sealedAlgorithm c.verifier m.header m.payload = .null := by
    rw [sealedAlgorithm, h.verifier_eq]
    rfl
  refine verify_eq_ok_iff.2 ⟨.empty, ?_, ?_⟩
  · rw [Examined.authenticationKeyLength, Context.finalKeySize, h.verifier_eq]
    rfl
  · rw [tagOf_eq h.finalized_eq (by rw [hsealed]; rfl), hsealed, h.tag_eq]
    rfl

/-- The message is delivered as it is. -/
theorem decode_eq : (c.decode m).2 = .ok m := by
  have havailable : KeySource.incomingAvailable c.keys
      (Examined.requests { authentication := c.verifier, encryption := none } m.header) = true := by
    rw [Examined.requests, Examined.authenticationKeyLength, Context.finalKeySize, h.verifier_eq]
    rfl
  have hexpand : c.expand m.header m.payload = .ok m.payload := by simp [expand, h.compressed_eq]
  have hopened : c.opened m { authentication := c.verifier, encryption := none } c.keys
      = (.ok m, c.keys) := by
    refine opened_eq_ok_iff.2 ⟨c.keys, m.payload, m.payload, h.verify_eq, rfl, hexpand, ?_⟩
    rw [← h.tag_eq]
  rw [decode_of_available h.examine_eq havailable, hopened]

end Unprotected

/-- A receiver that asks for no tags, without any keys. -/
def openReceiver : Channel KeyBuffer where
  id := 1
  association := Slots.replicate { algorithm := .null }
  keys := .byFour

theorem ofDefinition_openReceiver :
    ofDefinition 1 AssociationDefinition.null openReceiver.keys = .ok openReceiver := by rfl

/-- A message with one byte more than the bound allows. -/
def oversized : Message where
  header := { length := 16777237, flags := 0x22, command := 1, channelId := 1 }
  payload := List.replicate (maxPayload + 1) 0

theorem length_oversized : oversized.payload.length = maxPayload + 1 := List.length_replicate

theorem decode_oversized : (openReceiver.decode oversized).2 = .ok oversized := by
  have hconsistent : oversized.isLengthConsistent = true := by
    rw [Message.isLengthConsistent, Message.encodedLength, length_oversized]
    rfl
  have hadmits : openReceiver.admits oversized = true := by
    rw [admits, hconsistent]
    rfl
  exact Unprotected.decode_eq ⟨rfl, rfl, hadmits, rfl, rfl, rfl⟩

/-- A message of one byte, as the other end of such a channel sends it. -/
def withinBound : Message where
  header := { length := 21, messageId := 1, flags := 0x22, command := 1, channelId := 1 }
  payload := [7]

theorem delivered_bounded_iff_oversized :
    (oversized.payload.length ≤ maxPayload
        ↔ oversized.header.has .compressed = true ∨ openReceiver.openedLength oversized ≤ maxPayload)
      ∧ oversized.payload.length = openReceiver.openedLength oversized
      ∧ maxPayload < openReceiver.openedLength oversized
      ∧ (Message.ofPayload 1 [7]).payload.length ≤ maxPayload
      ∧ withinBound.payload.length ≤ maxPayload := by
  obtain ⟨hiff, hopened, -⟩ := delivered_bounded_iff decode_oversized
  have hlength := hopened rfl
  have hdecode : (openReceiver.decode withinBound).2 = .ok withinBound :=
    Unprotected.decode_eq ⟨rfl, rfl, rfl, rfl, rfl, rfl⟩
  have hencode : (openReceiver.encode (Message.ofPayload 1 [7])).2 = .ok withinBound := by cbv
  refine ⟨hiff, hlength, ?_, (delivered_bounded_iff hdecode).2.2 openReceiver _ hencode⟩
  rw [← hlength, length_oversized]
  exact Nat.lt_succ_self maxPayload

/-- Not every payload that is delivered keeps the bound. -/
theorem not_bounded_oversized :
    ¬ ∀ (definition : AssociationDefinition) (keys : KeyBuffer) (c : Channel KeyBuffer)
      (m o : Message), ofDefinition 1 definition keys = .ok c → (c.decode m).2 = .ok o →
      o.payload.length ≤ maxPayload := by
  intro h
  have hle := h .null openReceiver.keys openReceiver oversized oversized ofDefinition_openReceiver
    decode_oversized
  rw [length_oversized] at hle
  exact Nat.not_succ_le_self maxPayload hle

end OneTimeChannel.Channel

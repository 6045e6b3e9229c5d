/-
  Decoding notices tampering.

  An evaluation hash masks its tag with a key that is used once.  Two messages that are checked with
  the same key and differ in the tag only are told apart because masking loses nothing; two that differ
  in one block of the payload, or of the header, because the hash tells them apart
  (`EvaluationHash.digest_ne`).  What is left to show is that a message that was changed in this way
  reaches the verification at all and gets the same key there: examining it depends on the fields of
  `Header.Alike` and on the lengths of payload and tag, and on nothing else.

  This holds for every key source, in whatever state it is.
-/
import OneTimeChannel.Proofs.Keys.Buffer
import OneTimeChannel.Proofs.Channel.Decode
import OneTimeChannel.Proofs.Channel.InPlace

namespace OneTimeChannel

open Gf2 (Element)

/-! ## What is changed -/

/-- Two headers that take a message through the same checks and name the same keys. -/
structure Header.Alike (a b : Header) : Prop where
  length_eq : a.length = b.length
  channelId_eq : a.channelId = b.channelId
  version_eq : a.version = b.version
  authentic_eq : a.has .authentic = b.has .authentic
  encrypted_eq : a.has .encrypted = b.has .encrypted
  encryptionKeyId_eq : a.encryptionKeyId = b.encryptionKeyId
  authenticationKeyId_eq : a.authenticationKeyId = b.authenticationKeyId

theorem Header.Alike.refl (a : Header) : a.Alike a := ⟨rfl, rfl, rfl, rfl, rfl, rfl, rfl⟩

/-- `Tampered size m m'`: `m'` is `m` with another tag, or with one block of `size` bytes of the
    payload or of the header changed. -/
inductive Tampered (size : Nat) (m : Message) : Message → Prop where
  | tag {tag : Bytes} (length_eq : m.tag.length = tag.length) (ne : m.tag ≠ tag) :
    Tampered size m { m with tag }
  | payload {payload : Bytes} {k : Nat} (agree : AgreeOutside size k m.payload payload)
    (ne : m.payload ≠ payload) : Tampered size m { m with payload }
  | header {header : Header} {k : Nat}
    (agree : AgreeOutside size k m.header.toBytes header.toBytes) (ne : m.header ≠ header)
    (alike : m.header.Alike header) : Tampered size m { m with header }

namespace Tampered

variable {size : Nat} {m m' : Message}

theorem alike (h : Tampered size m m') : m.header.Alike m'.header := by
  cases h with
  | tag => exact .refl _
  | payload => exact .refl _
  | header _ _ alike => exact alike

theorem length_payload (h : Tampered size m m') : m.payload.length = m'.payload.length := by
  cases h with
  | tag => rfl
  | payload agree => exact agree.length_eq
  | header => rfl

theorem length_tag (h : Tampered size m m') : m.tag.length = m'.tag.length := by
  cases h with
  | tag length_eq => exact length_eq
  | payload => rfl
  | header => rfl

end Tampered

/-- The byte string with bit `i` flipped; bits are counted from the lowest of the first byte. -/
def flipBit (bs : Bytes) (i : Nat) : Bytes := bs.modify (i / 8) (· ^^^ 1 <<< UInt8.ofNat (i % 8))

@[simp] theorem length_flipBit (bs : Bytes) (i : Nat) : (flipBit bs i).length = bs.length :=
  List.length_modify ..

theorem ne_flipBit {bs : Bytes} {i : Nat} (hi : i < 8 * bs.length) : bs ≠ flipBit bs i := by
  have hbyte : i / 8 < bs.length := by omega
  intro heq
  have hat : bs[i / 8] = bs[i / 8] ^^^ 1 <<< UInt8.ofNat (i % 8) := by
    conv_lhs => rw [List.getElem_of_eq heq hbyte]
    simp [flipBit]
  have hmask : 0 = (1 : UInt8) <<< UInt8.ofNat (i % 8) := by
    have hxor := congrArg (bs[i / 8] ^^^ ·) hat
    rwa [← UInt8.xor_assoc, UInt8.xor_self, UInt8.zero_xor] at hxor
  have hnonzero : ∀ k < 8, 0 ≠ (1 : UInt8) <<< UInt8.ofNat k := by decide
  exact hnonzero (i % 8) (Nat.mod_lt _ (by decide)) hmask

/-- A flipped bit is a change within the block that it lies in. -/
theorem agreeOutside_flipBit {size : Nat} (hsize : 0 < size) (bs : Bytes) (i : Nat) :
    AgreeOutside size (i / 8 / size) bs (flipBit bs i) where
  length_eq := (length_flipBit bs i).symm
  before := by
    have hle : i / 8 / size * size ≤ i / 8 := Nat.div_mul_le_self _ _
    apply List.ext_getElem (by simp)
    intro j hj _
    have hother : i / 8 ≠ j := by
      have := List.length_take_le (i / 8 / size * size) bs
      omega
    simp [flipBit, hother]
  behind := by
    have hlt : i / 8 < (i / 8 / size + 1) * size := Nat.lt_mul_of_div_lt (Nat.lt_succ_self _) hsize
    apply List.ext_getElem (by simp)
    intro j hj _
    have hother : i / 8 ≠ (i / 8 / size + 1) * size + j := by omega
    simp [flipBit, hother]

/-! ## Why it shows in the tag -/

/-- The tag of a header and a payload before it is masked. -/
def EvaluationHash.unmasked (h : EvaluationHash) (header : Header) (payload : Bytes) :
    Element h.width.words :=
  h.digest (h.digest h.tag header.toBytes) payload

/-- A message that was tampered with does not have the tag that belongs to it. -/
theorem EvaluationHash.masked_ne (h : EvaluationHash) {m m' : Message} (hm : Tampered h.bytes m m')
    {mask : Bytes} (hmask : mask.length = h.bytes)
    (htag : List.zipWith (· ^^^ ·) (h.unmasked m.header m.payload).toBytes mask = m.tag) :
    List.zipWith (· ^^^ ·) (h.unmasked m'.header m'.payload).toBytes mask ≠ m'.tag := by
  have hsize : ∀ a : Element h.width.words, a.toBytes.length = mask.length := by
    intro a
    rw [Element.length_toBytes, hmask]
    rfl
  -- where the tag is the old one, its argument has to be
  have hcancel : h.unmasked m'.header m'.payload ≠ h.unmasked m.header m.payload → m'.tag = m.tag →
      List.zipWith (· ^^^ ·) (h.unmasked m'.header m'.payload).toBytes mask ≠ m'.tag := by
    intro hne hsame heq
    rw [hsame, ← htag] at heq
    exact hne (Element.toBytes_injective (zipWith_xor_left_cancel (hsize _) (hsize _) heq))
  cases hm with
  | tag _ hne =>
    rw [htag]
    exact hne
  | payload agree hne =>
    refine hcancel ?_ rfl
    exact (h.digest_ne _ agree hne).symm
  | @header header _ agree hne =>
    refine hcancel ?_ rfl
    intro heq
    have hbytes : m.header.toBytes ≠ header.toBytes := fun hb => hne (Header.toBytes_injective hb)
    exact h.digest_ne _ agree hbytes (h.digest_injective _ heq).symm

/-! ## Why it reaches the verification -/

namespace Channel

variable {K : Type} {c : Channel K} {m m' : Message} {authentication encryption : Context}

/-- A message that was tampered with passes the examination if the original does. -/
theorem Examines.tampered {size : Nat} (h : Examines c m authentication encryption)
    (hm : Tampered size m m') : Examines c m' authentication encryption where
  admits := by
    have hadmits := h.admits
    rw [Channel.admits, hm.alike.channelId_eq, hm.alike.version_eq, hm.alike.authentic_eq,
      Message.isLengthConsistent, Message.encodedLength, hm.alike.length_eq, hm.length_payload,
      hm.length_tag] at hadmits
    exact hadmits
  authentication_eq := h.authentication_eq
  encryption_eq := h.encryption_eq
  decryptable := hm.alike.encrypted_eq ▸ h.decryptable
  tag_length := hm.length_tag ▸ h.tag_length

/-- It asks for the same keys. -/
theorem requests_tampered {size : Nat} (hm : Tampered size m m') :
    (examined m' authentication encryption).requests m'.header
      = (examined m authentication encryption).requests m.header := by
  have hsize : (encryption.absorbed m'.payload).finalKeySize
      = (encryption.absorbed m.payload).finalKeySize :=
    encryption.algorithm.finalKeySize_absorbed hm.length_payload.symm
  have hlength : (examined m' authentication encryption).encryptionKeyLength
      = (examined m authentication encryption).encryptionKeyLength := by
    by_cases hflag : m.header.has .encrypted = true
    · have hflag' : m'.header.has .encrypted = true := hm.alike.encrypted_eq ▸ hflag
      simp [Examined.encryptionKeyLength, examined, hflag, hflag', hsize]
    · have hflag' : ¬ m'.header.has .encrypted = true := hm.alike.encrypted_eq ▸ hflag
      simp [Examined.encryptionKeyLength, examined, hflag, hflag']
  rw [Examined.requests, Examined.requests, hlength, hm.alike.encryptionKeyId_eq,
    hm.alike.authenticationKeyId_eq]
  rfl

end Channel

namespace Channel

/-- The tag under an evaluation hash is the masked one, if the key is as long as the mask. -/
theorem tagOf_eq_ok_iff {context : Context} {h : EvaluationHash}
    (hcontext : context.algorithm = .evaluationHash h) {header : Header} {payload : Bytes} {key : Key}
    {tag : Bytes} :
    tagOf context header payload key = .ok tag ↔
      context.finalized = false ∧ key.bytes.length = h.bytes
        ∧ List.zipWith (· ^^^ ·) (h.unmasked header payload).toBytes key.bytes = tag := by
  have hsealed : sealedAlgorithm context header payload
      = .evaluationHash { h with tag := h.unmasked header payload } := by
    rw [sealedAlgorithm, hcontext]
    rfl
  have haccepts : (sealedAlgorithm context header payload).acceptsFinalKey key = true
      ↔ key.bytes.length = h.bytes := by
    rw [hsealed]
    exact beq_iff_eq
  constructor
  · intro htag
    obtain ⟨hfin, hkey, hresult⟩ := accepts_of_tagOf_eq_ok htag
    rw [hsealed] at hresult
    exact ⟨hfin, haccepts.1 hkey, hresult.symm⟩
  · rintro ⟨hfin, hkey, rfl⟩
    rw [tagOf_eq hfin (haccepts.2 hkey), hsealed]
    rfl

end Channel

/-! ## Detection -/

namespace Channel

variable {K : Type} {c : Channel K} {m m' o : Message} {h : EvaluationHash}

/-- Every message is authenticated with the template itself. -/
theorem fresh_of_evaluationHash
    (hauth : c.association.authenticationIncoming.algorithm = .evaluationHash h) :
    c.fresh .authenticationIncoming = .ok c.association.authenticationIncoming := by
  simp only [fresh, Slots.get, Context.copy_of_evaluationHash hauth]

variable [KeySource K]

/-- The channel takes the message for a forgery and leaves it to the caller as it was. -/
def Refuses (c : Channel K) (m : Message) : Prop :=
  ∃ failure, (c.decode m).2 = .error failure ∧ failure.kind = .notAuthentic
    ∧ InPlace.decode.run ⟨c, m⟩ = .error failure ⟨(c.decode m).1, m⟩

theorem refuses_of_tampered
    (hauth : c.association.authenticationIncoming.algorithm = .evaluationHash h)
    (hok : (c.decode m).2 = .ok o) (hm : Tampered h.bytes m m') : c.Refuses m' := by
  obtain ⟨e, hexamine, hkeys, hopened⟩ := stages_of_decode_eq_ok hok
  obtain ⟨authentication, encryption, hchecks, rfl⟩ := examine_eq_ok_iff.1 hexamine
  obtain ⟨verified, _, _, hverify, _⟩ := opened_eq_ok_iff.1 hopened
  obtain ⟨key, hfetch, htag⟩ := verify_eq_ok_iff.1 hverify
  have hcontext : authentication.algorithm = .evaluationHash h := by
    have hfresh := hchecks.authentication_eq
    rw [fresh_of_evaluationHash hauth] at hfresh
    cases hfresh
    exact hauth
  obtain ⟨hfin, hmask, htag⟩ := (tagOf_eq_ok_iff hcontext).1 htag
  -- the changed message comes as far as the original, with the same key
  have hexamine' : c.examine m' = .ok (examined m' authentication encryption) :=
    examine_eq_ok_iff.2 ⟨_, _, hchecks.tampered hm, rfl⟩
  have hkeys' : KeySource.incomingAvailable c.keys
      ((examined m' authentication encryption).requests m'.header) = true := by
    rw [requests_tampered hm, hkeys]
  rw [hm.alike.authenticationKeyId_eq] at hfetch
  -- and is found out there
  have htag' : tagOf authentication m'.header m'.payload key
      = .ok (List.zipWith (· ^^^ ·) (h.unmasked m'.header m'.payload).toBytes key.bytes) :=
    (tagOf_eq_ok_iff hcontext).2 ⟨hfin, hmask, rfl⟩
  have hverify' : c.verify m' (examined m' authentication encryption) c.keys
      = (.error (c.forged m'.header), verified) :=
    verify_of_tag_ne hfetch htag' (h.masked_ne hm hmask htag)
  have hdecode : (c.decode m').2 = .error (c.forged m'.header) := by
    rw [decode_of_available hexamine' hkeys', opened_of_verify_error hverify']
  exact ⟨c.forged m'.header, hdecode, rfl, InPlace.run_decode_of_error hdecode⟩

/-- Whatever is changed in the tag alone, in one block of the payload or in one block of the header
    of a message that would be accepted, and that does not change the checks before the verification,
    makes it a forgery.  So does each single bit of payload and tag. -/
theorem refuses_tampered
    (hauth : c.association.authenticationIncoming.algorithm = .evaluationHash h)
    (hok : (c.decode m).2 = .ok o) :
    (∀ m', Tampered h.bytes m m' → c.Refuses m')
      ∧ (∀ i < 8 * m.payload.length, c.Refuses { m with payload := flipBit m.payload i })
      ∧ (∀ i < 8 * m.tag.length, c.Refuses { m with tag := flipBit m.tag i }) := by
  refine ⟨fun m' hm => refuses_of_tampered hauth hok hm, ?_, ?_⟩
  · intro i hi
    exact refuses_of_tampered hauth hok
      (.payload (agreeOutside_flipBit h.bytes_pos m.payload i) (ne_flipBit hi))
  · intro i hi
    exact refuses_of_tampered hauth hok (.tag (length_flipBit m.tag i).symm (ne_flipBit hi))

/-- A hash over 32 bits, with `x` for `alpha`. -/
def hashByX : EvaluationHash where
  width := .bits32
  alpha := .ofElement _ 2 .single
  tag := 0
  field_eq := rfl
  alpha_ne_zero := by decide

/-- Channel 1 of a receiver that holds one quantum of four bytes. -/
def receiverByX : Channel KeyBuffer where
  id := 1
  association :=
    (Slots.replicate { algorithm := .null }).set .authenticationIncoming
      { algorithm := .evaluationHash hashByX }
  keys := KeyBuffer.byFour.pushIncoming [1, 2, 3, 4]

/-- A message of one byte that it accepts. -/
def messageByX : Message where
  header := { length := 25, flags := 0x22, channelId := 1, authenticationKeyId := 1 }
  payload := [7]
  tag := [47, 2, 4, 74]

theorem accepts_messageByX :
    (receiverByX.decode messageByX).2 = .ok { header := messageByX.header, payload := [7] } := by
  decide +kernel

theorem refuses_tampered_messageByX :
    (∀ m', Tampered hashByX.bytes messageByX m' → receiverByX.Refuses m')
      ∧ (∀ i < 8 * messageByX.payload.length,
        receiverByX.Refuses { messageByX with payload := flipBit messageByX.payload i })
      ∧ (∀ i < 8 * messageByX.tag.length,
        receiverByX.Refuses { messageByX with tag := flipBit messageByX.tag i }) :=
  refuses_tampered rfl accepts_messageByX

end Channel

end OneTimeChannel

/-
  What one end encodes, the other end decodes.

  The sender takes keys from the front of its stock, the receiver finds them by the ids in the header.
  Both have the same stream of key bytes, and a key with a given id is the same piece of it on both
  sides (`keyAt`).  So it is enough that the sender encodes with pieces of the stream
  (`Sending.SentFrom`), and that the receiver still has these pieces when the message comes in: it then
  finds nothing wrong with the message (`Opposite.examines`), asks for keys of the same lengths
  (`Opposite.encryptionKeyLength_examined`), and undoes what the sender did (`Opposite.opened_eq`).

  Messages may come in any order since no two of them use the same quantum: decoding one of them leaves
  the quanta of all others (`arrives_receiveWires`).
-/
import OneTimeChannel.Proofs.Channel.Dispatch
import OneTimeChannel.Proofs.Channel.Reception
import OneTimeChannel.Proofs.Cipher.Recreation

namespace OneTimeChannel

open KeyStock (idsFrom quantaFor keyAt)

/-! ## Pads -/

namespace Algorithm

/-- What a pad does to its data it undoes with the same key. -/
theorem result_pad_result_pad {data : Bytes} {key : Key} (h : key.length = data.length) :
    (pad ((pad data).result key)).result key = data := by
  have hkey : key.bytes.length = data.length := h
  have hlength : ((pad data).result key).length = data.length := by simp [result, hkey]
  rw [result, hlength, result]
  exact zipWith_xor_zipWith_xor (by simp [hkey])

end Algorithm

namespace Channel

/-- Taking in a header and a payload changes neither size of an authenticator. -/
theorem sizes_sealedAlgorithm {context : Context} (h : context.Authenticates) (header : Header)
    (payload : Bytes) : (sealedAlgorithm context header payload).finalKeySize = context.finalKeySize
      ∧ (sealedAlgorithm context header payload).resultSize = context.resultSize := by
  rw [sealedAlgorithm, Context.finalKeySize, Context.resultSize]
  rcases h.algorithm_eq with hnull | ⟨hash, hhash⟩
  · rw [hnull]
    exact ⟨rfl, rfl⟩
  · rw [hhash]
    exact ⟨rfl, rfl⟩

/-! ## The message between the two ends -/

variable {K L : Type} {alice : Channel K} {bob : Channel L} {m : Message}
  {authentication encryption : Context} {payload : Bytes}

/-- The flags of a message on the wire. -/
def wireFlags (compressed encrypted : Bool) : UInt8 :=
  (if compressed then 38 else 34) ||| (if encrypted then 1 else 0)

theorem flags_completed (alice : Channel K) (m : Message) (authentication encryption : Context)
    (payload : Bytes) (e a : UInt32 × Key) :
    ((alice.drafted m authentication encryption payload).completed e a).header.flags
      = wireFlags (alice.compresses m encryption) (encrypts m encryption) := by
  simp only [Draft.completed, Draft.maybeEncrypted, drafted, Draft.sealedHeader]
  cases encrypts m encryption <;> cases alice.compresses m encryption <;>
    simp only [Bool.false_eq_true, if_false, if_true, Draft.encrypted, draftHeader, Header.setFlag] <;>
    decide

theorem has_wireFlags (header : Header) (compressed encrypted : Bool)
    (h : header.flags = wireFlags compressed encrypted) :
    header.version = protocolVersion ∧ header.has .authentic = true
      ∧ header.has .compressed = compressed ∧ header.has .encrypted = encrypted := by
  rw [Header.version, Header.has, Header.has, Header.has, h]
  cases compressed <;> cases encrypted <;> decide

/-- The second end receives with what the first one sends with. -/
structure Opposite (alice : Channel K) (bob : Channel L) : Prop where
  id_eq : bob.id = alice.id
  codec_eq : bob.codec = alice.codec
  authentication_eq :
    bob.association.authenticationIncoming = alice.association.authenticationOutgoing
  encryption_eq : bob.association.encryptionIncoming = alice.association.encryptionOutgoing
  authentication_fit : alice.association.authenticationOutgoing.Authenticates
  encryption_fit : alice.association.encryptionOutgoing.Encrypts
  restores : alice.codec.Restores

/-- Being two ends does not depend on keys, ids of messages and thresholds. -/
theorem Opposite.congr {alice' : Channel K} {bob' : Channel L} (h : alice.Opposite bob)
    (halice : alice'.id = alice.id ∧ alice'.association = alice.association
      ∧ alice'.codec = alice.codec)
    (hbob : bob'.id = bob.id ∧ bob'.association = bob.association ∧ bob'.codec = bob.codec) :
    alice'.Opposite bob' := by
  obtain ⟨hid, hassociation, hcodec⟩ := halice
  obtain ⟨hid', hassociation', hcodec'⟩ := hbob
  constructor
  · rw [hid', hid, h.id_eq]
  · rw [hcodec', hcodec, h.codec_eq]
  · rw [hassociation', hassociation, h.authentication_eq]
  · rw [hassociation', hassociation, h.encryption_eq]
  · rw [hassociation]
    exact h.authentication_fit
  · rw [hassociation]
    exact h.encryption_fit
  · rw [hcodec]
    exact h.restores

theorem fresh_of_copy_eq {slot : Slot} (h : (alice.association.get slot).copy = .ok authentication) :
    alice.fresh slot = .ok authentication := by
  rw [fresh, h]

/-- Every message starts from the templates. -/
theorem Opposite.templates (h : alice.Opposite bob)
    (hd : Drafts alice m authentication encryption payload) :
    authentication.Authenticates ∧ encryption.Encrypts
      ∧ authentication = bob.association.authenticationIncoming
      ∧ bob.fresh .authenticationIncoming = .ok authentication
      ∧ bob.fresh .encryptionIncoming = .ok encryption := by
  obtain rfl : alice.association.authenticationOutgoing = authentication := by
    have hcopy : (alice.association.get .authenticationOutgoing).copy
        = .ok alice.association.authenticationOutgoing := h.authentication_fit.copy_eq
    exact Except.ok.inj ((fresh_of_copy_eq hcopy).symm.trans hd.authentication_eq)
  obtain rfl : alice.association.encryptionOutgoing = encryption := by
    have hcopy : (alice.association.get .encryptionOutgoing).copy
        = .ok alice.association.encryptionOutgoing := h.encryption_fit.copy_eq
    exact Except.ok.inj ((fresh_of_copy_eq hcopy).symm.trans hd.encryption_eq)
  refine ⟨h.authentication_fit, h.encryption_fit, h.authentication_eq.symm, ?_, ?_⟩
  · refine fresh_of_copy_eq ?_
    rw [Slots.get, h.authentication_eq, h.authentication_fit.copy_eq]
  · refine fresh_of_copy_eq ?_
    rw [Slots.get, h.encryption_eq, h.encryption_fit.copy_eq]

/-- Where a message is encrypted, it is with a pad. -/
theorem algorithm_of_encrypts (he : encryption.Encrypts) (h : encrypts m encryption = true) :
    encryption.isNull = false ∧ encryption.algorithm = .pad [] := by
  have hnull : encryption.isNull = false := by
    simp only [encrypts, Bool.and_eq_true, Bool.not_eq_true'] at h
    exact h.2
  refine ⟨hnull, he.algorithm_eq.resolve_left ?_⟩
  intro halgorithm
  rw [Context.isNull, halgorithm] at hnull
  cases hnull

/-- The payload as it was before it was packed. -/
theorem Opposite.expand_eq (h : alice.Opposite bob)
    (hd : Drafts alice m authentication encryption payload) {header : Header}
    (hheader : header.has .compressed = alice.compresses m encryption) :
    bob.expand header payload = .ok m.payload := by
  have hpack := hd.pack_eq
  rw [expand, hheader, h.codec_eq]
  rw [pack] at hpack
  split at hpack
  · next hcompresses =>
    rw [if_pos hcompresses]
    split at hpack
    · next packed hpacked =>
      cases hpack
      rw [h.restores maxPayload m.payload payload hpacked hd.length_le]
      exact if_neg (Nat.not_lt.2 hd.length_le)
    · cases hpack
  · next hcompresses =>
    cases hpack
    rw [if_neg hcompresses]

/-- What the header says beside the flags. -/
theorem header_completed (alice : Channel K) (m : Message) (authentication encryption : Context)
    (payload : Bytes) (e a : UInt32 × Key) :
    ((alice.drafted m authentication encryption payload).completed e a).header.channelId = alice.id
      ∧ ((alice.drafted m authentication encryption payload).completed e a).header.command
        = m.header.command
      ∧ ((alice.drafted m authentication encryption payload).completed e a).header.length
        = UInt32.ofNat (headerSize + payload.length + authentication.resultSize) := by
  simp only [Draft.completed, Draft.maybeEncrypted, drafted, Draft.sealedHeader]
  cases encrypts m encryption <;> exact ⟨rfl, rfl, rfl⟩

/-- The payload on the wire. -/
theorem payload_completed (alice : Channel K) (m : Message) (authentication encryption : Context)
    (payload : Bytes) (e a : UInt32 × Key) :
    ((alice.drafted m authentication encryption payload).completed e a).payload
      = if encrypts m encryption then (encryption.absorbed payload).algorithm.result e.2
        else payload := by
  simp only [Draft.completed, Draft.maybeEncrypted, drafted]
  cases encrypts m encryption <;> rfl

/-- The context that has taken in a payload is a pad with it, and asks for a key as long as it. -/
theorem absorbed_of_encrypts (he : encryption.Encrypts) (h : encrypts m encryption = true)
    (payload : Bytes) : (encryption.absorbed payload).algorithm = .pad payload := by
  rw [Context.absorbed, (algorithm_of_encrypts he h).2]
  rfl

theorem encryptionKeyLength_drafted (alice : Channel K) (he : encryption.Encrypts) :
    (alice.drafted m authentication encryption payload).encryptionKeyLength
      = if encrypts m encryption then payload.length else 0 := by
  rw [Draft.encryptionKeyLength, drafted]
  by_cases h : encrypts m encryption = true
  · simp only [if_pos h, Context.finalKeySize, absorbed_of_encrypts he h payload]
    rfl
  · simp only [if_neg h]

/-- Encryption keeps the length of the payload. -/
theorem length_payload_completed (alice : Channel K) (he : encryption.Encrypts) {e a : UInt32 × Key}
    (hkey : e.2.length
      = (alice.drafted m authentication encryption payload).encryptionKeyLength) :
    ((alice.drafted m authentication encryption payload).completed e a).payload.length
      = payload.length := by
  rw [encryptionKeyLength_drafted alice he] at hkey
  rw [payload_completed]
  by_cases h : encrypts m encryption = true
  · rw [if_pos h] at hkey
    rw [if_pos h, absorbed_of_encrypts he h,
      Algorithm.length_result (Algorithm.acceptsFinalKey_of_length hkey)]
    rfl
  · rw [if_neg h]

/-- The tag on the wire, and its length. -/
theorem tag_completed (alice : Channel K) (m : Message) (encryption : Context) (payload : Bytes)
    (ha : authentication.Authenticates) (e : UInt32 × Key) {a : UInt32 × Key}
    (hkey : a.2.length = authentication.finalKeySize) :
    let message := (alice.drafted m authentication encryption payload).completed e a
    tagOf authentication message.header message.payload a.2 = .ok message.tag
      ∧ message.tag.length = authentication.resultSize := by
  intro message
  obtain ⟨hfinal, hresult⟩ := sizes_sealedAlgorithm ha message.header message.payload
  have hlength : a.2.length
      = (sealedAlgorithm authentication message.header message.payload).finalKeySize := by
    rw [hkey, hfinal]
  have htag : message.tag
      = (sealedAlgorithm authentication message.header message.payload).result a.2 := rfl
  have haccepts := Algorithm.acceptsFinalKey_of_length hlength
  rw [tagOf_eq ha.finalized_eq haccepts, htag, Algorithm.length_result haccepts, hresult]
  exact ⟨rfl, rfl⟩

/-- A draft is completed with the two keys that it asks for. -/
theorem complete_drafted (alice : Channel K) (m : Message) (payload : Bytes)
    (hauth : authentication.Authenticates) (henc : encryption.Encrypts) {keys between keys' : KeyBuffer}
    {e a : UInt32 × Key}
    (he : e.2.length = (alice.drafted m authentication encryption payload).encryptionKeyLength)
    (ha : a.2.length = authentication.finalKeySize)
    (hfetch : KeySource.fetchOutgoing keys
      (alice.drafted m authentication encryption payload).encryptionKeyLength = (.ok e, between))
    (hfetch' : KeySource.fetchOutgoing between authentication.finalKeySize = (.ok a, keys')) :
    (alice.drafted m authentication encryption payload).complete keys
      = (.ok ((alice.drafted m authentication encryption payload).completed e a), keys') := by
  obtain ⟨htag, hsize⟩ := tag_completed alice m encryption payload hauth e ha
  have hencrypt : (alice.drafted m authentication encryption payload).encrypt keys
      = (.ok ((alice.drafted m authentication encryption payload).maybeEncrypted e.1 e.2), between) := by
    rw [encrypt_eq_ok_iff]
    by_cases hencrypts : encrypts m encryption = true
    · have hsome : (alice.drafted m authentication encryption payload).encryption
          = some (encryption.absorbed payload) := if_pos hencrypts
      refine Or.inr ⟨_, e.1, e.2, hsome, ?_, henc.finalized_eq, ?_, ?_⟩
      · rw [Draft.encryptionKeyLength, hsome] at hfetch
        exact hfetch
      · rw [Draft.encryptionKeyLength, hsome] at he
        exact Algorithm.acceptsFinalKey_of_length he
      · rw [Draft.maybeEncrypted, hsome]
    · have hnone : (alice.drafted m authentication encryption payload).encryption = none :=
        if_neg hencrypts
      refine Or.inl ⟨hnone, ?_, ?_⟩
      · rw [Draft.maybeEncrypted, hnone]
      · rw [Draft.encryptionKeyLength, hnone] at hfetch
        exact (congrArg Prod.snd hfetch).symm
  have hsame : ((alice.drafted m authentication encryption payload).maybeEncrypted e.1
      e.2).authentication = authentication := by
    rw [Draft.maybeEncrypted]
    split <;> rfl
  refine complete_eq_ok_iff.2 ⟨_, between, hencrypt, authenticate_eq_ok_iff.2 ⟨a.1, a.2, _, ?_, ?_, ?_, rfl⟩⟩
  · rw [Draft.authenticationKeyLength, hsame]
    exact hfetch'
  · rw [hsame]
    exact htag
  · rw [hsame]
    exact hsize

/-- Where the templates are fit, a message that can be drafted and has its keys there is sent, and what is
    gone are these keys. -/
theorem sending_of_available {c : Channel KeyBuffer} {stream : Bytes} {n k l : Nat}
    (hauth : c.association.authenticationOutgoing.Authenticates)
    (henc : c.association.encryptionOutgoing.Encrypts) (hkeys : c.keys.Sends stream n)
    (hbound : stream.length / c.keys.quantum < 2 ^ 32 - 1)
    (hdraft : (c.draft m).map (·.keyLengths) = .ok [k, l])
    (havailable : c.keys.outgoingAvailable [k, l] = true) :
    (∃ s, c.sending m = [s]) ∧ c.dispatch (.message m)
      = { c with
          keys := (KeySource.fetchOutgoing (KeySource.fetchOutgoing c.keys k).2 l).2
          nextMessageId := c.nextMessageId + 1 } := by
  obtain ⟨e, between, a, keys', hfetch, hfetch'⟩ := hkeys.exists_fetchOutgoing_both hbound havailable
  have hquantum : between.quantum = c.keys.quantum := by
    have hframe := (KeyBuffer.fetchOutgoing_frame c.keys k).1
    rwa [hfetch] at hframe
  have hpieces : ∀ length ∈ [k, l], pieceCount c.keys.quantum length < 2 ^ 32 :=
    fun _ hmem => hkeys.pieceCount_lt hbound havailable hmem
  obtain ⟨n', -, hsends⟩ := hkeys.exists_sends_fetchOutgoing hbound k
  rw [hfetch] at hsends
  have he := (hkeys.key_of_fetchOutgoing hbound (hpieces k (by simp)) hfetch).2
  have ha := (hsends.key_of_fetchOutgoing (by rwa [hquantum])
    (by rw [hquantum]; exact hpieces l (by simp)) hfetch').2
  cases hd : c.draft m with
  | error failure =>
    rw [hd] at hdraft
    cases hdraft
  | ok d =>
    -- the draft is made from the templates themselves
    rw [hd] at hdraft
    obtain ⟨authentication, encryption, payload, hdrafts, rfl⟩ := draft_eq_ok_iff.1 hd
    have hfreshAuth : c.fresh .authenticationOutgoing = .ok c.association.authenticationOutgoing :=
      fresh_of_copy_eq hauth.copy_eq
    have hfreshEnc : c.fresh .encryptionOutgoing = .ok c.association.encryptionOutgoing :=
      fresh_of_copy_eq henc.copy_eq
    obtain rfl : c.association.authenticationOutgoing = authentication :=
      Except.ok.inj (hfreshAuth.symm.trans hdrafts.authentication_eq)
    obtain rfl : c.association.encryptionOutgoing = encryption :=
      Except.ok.inj (hfreshEnc.symm.trans hdrafts.encryption_eq)
    obtain ⟨rfl, rfl⟩ : Draft.encryptionKeyLength _ = k ∧ Draft.authenticationKeyLength _ = l := by
      simpa [Draft.keyLengths] using Except.ok.inj hdraft
    have hcomplete := complete_drafted c m payload hauth henc he ha hfetch hfetch'
    have hencode := encode_of_complete_ok hd havailable hcomplete
    refine ⟨⟨_, sending_of_ok hd (congrArg Prod.snd hencode)⟩, ?_⟩
    rw [hfetch]
    dsimp only
    rw [hfetch']
    exact congrArg Prod.fst hencode

/-- The other end finds nothing wrong with the message. -/
theorem Opposite.examines (h : alice.Opposite bob)
    (hd : Drafts alice m authentication encryption payload) {e a : UInt32 × Key}
    (he : e.2.length = (alice.drafted m authentication encryption payload).encryptionKeyLength)
    (ha : a.2.length = authentication.finalKeySize) :
    Examines bob ((alice.drafted m authentication encryption payload).completed e a)
      authentication encryption := by
  obtain ⟨hauthenticates, hencrypts, -, hfresh, hfresh'⟩ := h.templates hd
  obtain ⟨hchannel, -, hlength⟩ := header_completed alice m authentication encryption payload e a
  obtain ⟨hversion, hauthentic, -, hencrypted⟩ :=
    has_wireFlags _ _ _ (flags_completed alice m authentication encryption payload e a)
  have htag := (tag_completed alice m encryption payload hauthenticates e ha).2
  have hpayload := length_payload_completed alice hencrypts (a := a) he
  refine ⟨?_, hfresh, hfresh', ?_, htag⟩
  · have hconsistent : ((alice.drafted m authentication encryption payload).completed e
        a).isLengthConsistent = true := by
      rw [Message.isLengthConsistent, Message.encodedLength, hlength, hpayload, htag,
        UInt32.toNat_ofNat_of_lt' hd.length_lt, beq_self_eq_true]
    rw [admits, hchannel, hversion, hauthentic, hconsistent, h.id_eq]
    simp [hd.id_ne]
  · intro hflag
    rw [hencrypted] at hflag
    exact ⟨(algorithm_of_encrypts hencrypts hflag).1, hencrypts.finalized_eq⟩

/-- The other end asks for a key of the length that the message was encrypted with. -/
theorem Opposite.encryptionKeyLength_examined (h : alice.Opposite bob)
    (hd : Drafts alice m authentication encryption payload) {e a : UInt32 × Key}
    (he : e.2.length = (alice.drafted m authentication encryption payload).encryptionKeyLength)
    {message : Message}
    (hmessage : message = (alice.drafted m authentication encryption payload).completed e a) :
    (examined message authentication encryption).encryptionKeyLength
      = (alice.drafted m authentication encryption payload).encryptionKeyLength := by
  obtain ⟨-, hencrypts, -⟩ := h.templates hd
  obtain ⟨-, -, -, hencrypted⟩ :=
    has_wireFlags _ _ _ (flags_completed alice m authentication encryption payload e a)
  have hpayload := length_payload_completed alice hencrypts (a := a) he
  rw [← hmessage] at hencrypted hpayload
  rw [Examined.encryptionKeyLength, examined, hencrypted, encryptionKeyLength_drafted alice hencrypts]
  by_cases hflag : Channel.encrypts m encryption = true
  · simp only [if_pos hflag, Context.finalKeySize, absorbed_of_encrypts hencrypts hflag]
    exact hpayload
  · simp only [if_neg hflag]

section Opening

variable {bob : Channel KeyBuffer}

/-- The tag is the one that belongs to the key. -/
theorem Opposite.verify_eq (h : alice.Opposite bob)
    (hd : Drafts alice m authentication encryption payload) {e a : UInt32 × Key}
    (ha : a.2.length = authentication.finalKeySize) {message : Message}
    (hmessage : message = (alice.drafted m authentication encryption payload).completed e a)
    {keys between : KeyBuffer}
    (hfetch : KeySource.fetchIncoming keys message.header.authenticationKeyId
      authentication.finalKeySize = (.ok a.2, between)) :
    bob.verify message (examined message authentication encryption) keys = (.ok (), between) := by
  obtain ⟨hauthenticates, -⟩ := h.templates hd
  have htag := (tag_completed alice m encryption payload hauthenticates e ha).1
  rw [← hmessage] at htag
  exact verify_eq_ok_iff.2 ⟨a.2, hfetch, htag⟩

/-- A pad is taken off with the key that it was put on with; without encryption there is none. -/
theorem Opposite.decrypt_eq (h : alice.Opposite bob)
    (hd : Drafts alice m authentication encryption payload) {e a : UInt32 × Key}
    (he : e.2.length = (alice.drafted m authentication encryption payload).encryptionKeyLength)
    {message : Message}
    (hmessage : message = (alice.drafted m authentication encryption payload).completed e a)
    {between keys' : KeyBuffer}
    (hfetch : KeySource.fetchIncoming between message.header.encryptionKeyId
      (alice.drafted m authentication encryption payload).encryptionKeyLength = (.ok e.2, keys')) :
    decrypt message (examined message authentication encryption) between = (.ok payload, keys') := by
  obtain ⟨-, hencrypts, -⟩ := h.templates hd
  obtain ⟨-, -, -, hencrypted⟩ :=
    has_wireFlags _ _ _ (flags_completed alice m authentication encryption payload e a)
  have hlength := length_payload_completed alice hencrypts (a := a) he
  have hpayload := payload_completed alice m authentication encryption payload e a
  have hasked := h.encryptionKeyLength_examined hd he hmessage
  rw [← hmessage] at hencrypted hlength hpayload
  rw [decrypt_eq_ok_iff]
  by_cases hflag : Channel.encrypts m encryption = true
  · have hpad := absorbed_of_encrypts hencrypts hflag message.payload
    have hkey : e.2.length = payload.length := by
      rw [he, encryptionKeyLength_drafted alice hencrypts, if_pos hflag]
    rw [if_pos hflag, absorbed_of_encrypts hencrypts hflag] at hpayload
    refine Or.inr ⟨encryption.absorbed message.payload, e.2, ?_, ?_, hencrypts.finalized_eq, ?_, ?_⟩
    · rw [examined, hencrypted, if_pos hflag]
    · rw [hasked]
      exact hfetch
    · rw [Context.acceptsFinalKey, hpad]
      refine Algorithm.acceptsFinalKey_of_length ?_
      rw [hkey, ← hlength]
      rfl
    · rw [hpad, hpayload, Algorithm.result_pad_result_pad hkey]
  · rw [if_neg hflag] at hpayload
    rw [encryptionKeyLength_drafted alice hencrypts, if_neg hflag] at hfetch
    refine Or.inl ⟨?_, hpayload.symm, ?_⟩
    · rw [examined, hencrypted, if_neg hflag]
    · exact (congrArg Prod.snd hfetch).symm

/-- With the keys it was sent with, a message is opened. -/
theorem Opposite.opened_eq (h : alice.Opposite bob)
    (hd : Drafts alice m authentication encryption payload) {e a : UInt32 × Key}
    (he : e.2.length = (alice.drafted m authentication encryption payload).encryptionKeyLength)
    (ha : a.2.length = authentication.finalKeySize) {message : Message}
    (hmessage : message = (alice.drafted m authentication encryption payload).completed e a)
    {keys between keys' : KeyBuffer}
    (hfetch : KeySource.fetchIncoming keys message.header.authenticationKeyId
      authentication.finalKeySize = (.ok a.2, between))
    (hfetch' : KeySource.fetchIncoming between message.header.encryptionKeyId
      (alice.drafted m authentication encryption payload).encryptionKeyLength = (.ok e.2, keys')) :
    bob.opened message (examined message authentication encryption) keys
      = (.ok { header := message.header, payload := m.payload }, keys') := by
  obtain ⟨-, -, hcompressed, -⟩ :=
    has_wireFlags _ _ _ (flags_completed alice m authentication encryption payload e a)
  rw [← hmessage] at hcompressed
  exact opened_eq_ok_iff.2 ⟨between, payload, m.payload, h.verify_eq hd ha hmessage hfetch,
    h.decrypt_eq hd he hmessage hfetch', h.expand_eq hd hcompressed, rfl⟩

/-- A message that was sent with keys of a stream is decoded by an end that was delivered the stream
    and has not used these keys. -/
theorem Opposite.decode_sending {s : Sending} {q : Nat} {stream : Bytes} {used : List UInt32}
    (h : alice.Opposite bob) (hdraft : alice.draft s.given = .ok s.draft) (hsent : s.SentFrom q stream)
    (hquantum : bob.keys.quantum = q) (hkeys : bob.keys.Receives stream used)
    (hbound : stream.length / q < 2 ^ 32 - 1) (hnodup : (s.quanta q).Nodup)
    (hfresh : ∀ id ∈ s.quanta q, 0 < id.toNat ∧ id.toNat ≤ stream.length / q ∧ id ∉ used) :
    (bob.decode s.encoded).2
        = .ok { header := s.encoded.header, payload := s.given.payload }
      ∧ s.encoded.header.command = s.given.header.command
      ∧ s.encoded.tag.length = bob.incomingTagLength
      ∧ ∃ used', (bob.decode s.encoded).1.keys.Receives stream used'
        ∧ ∀ id ∈ used', id ∈ used ∨ id ∈ s.quanta q := by
  subst hquantum
  obtain ⟨given, draft, encoded⟩ := s
  change alice.draft given = .ok draft at hdraft
  obtain ⟨authentication, encryption, payload, hd, rfl⟩ := draft_eq_ok_iff.1 hdraft
  have hencoded := hsent.encoded_eq
  have he := hsent.length_encryptionKey
  have ha := hsent.length_authenticationKey
  have hpieces := hsent.pieceCount_lt
  simp only [Draft.keyLengths, List.forall_mem_cons] at hencoded he ha hpieces hfresh ⊢
  -- all quanta of the message are held, and none is needed twice
  have hheld := fun id hid => hkeys.mem_held_iff.2 (hfresh id hid)
  obtain ⟨-, -, hapart⟩ := List.nodup_append'.1 hnodup
  obtain ⟨between, keys', hfetch, hfetch', hkeys'⟩ :=
    hkeys.exists_fetchIncoming_both hbound hpieces.2.1 hpieces.1
      (fun id hid => hheld id (List.mem_append_right _ hid))
      (fun id hid => hheld id (List.mem_append_left _ hid)) hapart.symm
  -- so the message is opened with the keys that it was sent with
  have hopened := h.opened_eq hd he ha hencoded hfetch hfetch'
  have hexamines : Examines bob encoded authentication encryption := by
    rw [hencoded]
    exact h.examines hd he ha
  have hexamine := examine_eq_ok_iff.2 ⟨authentication, encryption, hexamines, rfl⟩
  have havailable : KeySource.incomingAvailable bob.keys
      ((examined encoded authentication encryption).requests encoded.header) = true := by
    rw [Examined.requests, h.encryptionKeyLength_examined hd he hencoded]
    refine KeyBuffer.incomingAvailable_iff.2 ?_
    simp only [KeyBuffer.requestedIds, List.flatMap_cons, List.flatMap_nil, List.append_nil]
    refine ⟨List.nodup_append_comm.1 hnodup, fun id hid => hheld id ?_⟩
    exact List.mem_append.2 (List.mem_append.1 hid).symm
  rw [decode_of_available hexamine havailable, hopened]
  refine ⟨rfl, ?_, ?_, _, hkeys', ?_⟩
  · rw [hencoded]
    exact (header_completed alice given authentication encryption payload _ _).2.1
  · rw [hexamines.tag_length, (h.templates hd).2.2.1]
    rfl
  · intro id hid
    rw [List.append_assoc, List.mem_append] at hid
    exact hid.imp_right fun hnew => List.mem_append.2 (List.mem_append.1 hnew).symm

end Opening

/-! ## Many messages -/

/-- Reads a message off the wire and decodes it; there is no result if it is too short to be one. -/
def receiveWire [KeySource L] (c : Channel L) (wire : Bytes) :
    Channel L × Option (Except Failure Message) :=
  match Message.ofWire wire c.incomingTagLength with
  | .error _ => (c, none)
  | .ok m => ((c.decode m).1, some (c.decode m).2)

/-- The results for several messages, one after the other. -/
def receiveWires [KeySource L] (c : Channel L) : List Bytes → List (Option (Except Failure Message))
  | [] => []
  | wire :: rest => (c.receiveWire wire).2 :: (c.receiveWire wire).1.receiveWires rest

/-- What comes of a message that arrives as it should. -/
def Arrives (s : Sending) (r : Option (Except Failure Message)) : Prop :=
  ∃ o, r = some (.ok o) ∧ o.payload = s.given.payload
    ∧ o.header.command = s.given.header.command

/-- Messages whose keys do not overlap all arrive, in whatever order. -/
theorem arrives_receiveWires {bob : Channel KeyBuffer} {q : Nat} {stream : Bytes} {used : List UInt32}
    {arrivals : List Sending} (hquantum : bob.keys.quantum = q)
    (hkeys : bob.keys.Receives stream used) (hbound : stream.length / q < 2 ^ 32 - 1)
    (hdrafts : ∀ s ∈ arrivals, ∃ alice : Channel KeyBuffer, alice.Opposite bob
      ∧ alice.draft s.given = .ok s.draft)
    (hsent : ∀ s ∈ arrivals, s.SentFrom q stream)
    (hnodup : (arrivals.flatMap (·.quanta q)).Nodup)
    (hfresh : ∀ id ∈ arrivals.flatMap (·.quanta q),
      0 < id.toNat ∧ id.toNat ≤ stream.length / q ∧ id ∉ used) :
    List.Forall₂ Arrives arrivals (bob.receiveWires (arrivals.map (·.encoded.toWire))) := by
  -- decoding a message adds its quanta to those that were used, and those of the others are not among them
  induction arrivals generalizing bob used with
  | nil => exact List.Forall₂.nil
  | cons s rest ih =>
    rw [List.forall_mem_cons] at hdrafts hsent
    rw [List.flatMap_cons, List.nodup_append'] at hnodup
    rw [List.flatMap_cons, List.forall_mem_append] at hfresh
    obtain ⟨alice, hopposite, hdraft⟩ := hdrafts.1
    obtain ⟨hdecode, hcommand, htag, used', hkeys', hused'⟩ :=
      hopposite.decode_sending hdraft hsent.1 hquantum hkeys hbound hnodup.1 hfresh.1
    have hwire : bob.receiveWire s.encoded.toWire
        = ((bob.decode s.encoded).1, some (bob.decode s.encoded).2) := by
      rw [receiveWire, ← htag, Message.ofWire_toWire]
    rw [List.map_cons, receiveWires, hwire, hdecode]
    refine List.Forall₂.cons ⟨_, rfl, rfl, hcommand⟩ ?_
    refine ih (by rw [quantum_decode, hquantum]) hkeys' ?_ hsent.2 hnodup.2.1 ?_
    · intro s' hs'
      obtain ⟨alice', h, hdraft'⟩ := hdrafts.2 s' hs'
      refine ⟨alice', h.congr ⟨rfl, rfl, rfl⟩ ?_, hdraft'⟩
      rw [decode_fst]
      exact ⟨rfl, rfl, rfl⟩
    · intro id hid
      obtain ⟨hpos, hle, hunused⟩ := hfresh.2 id hid
      refine ⟨hpos, hle, fun hmem => ?_⟩
      rcases hused' id hmem with hold | hnew
      · exact hunused hold
      · exact hnodup.2.2 hnew hid

end Channel

/-! ## The two ends of a tunnel -/

/-- The schemes with which everything that is sent can be received: tags have one size, and encryption
    has no data of its own. -/
structure AssociationDefinition.Reliable (d : AssociationDefinition) : Prop where
  authenticationIncoming : Scheme.Authenticates d.authenticationIncoming
  authenticationOutgoing : Scheme.Authenticates d.authenticationOutgoing
  encryptionIncoming : Scheme.Encrypts d.encryptionIncoming
  encryptionOutgoing : Scheme.Encrypts d.encryptionOutgoing

namespace Channel

variable {d : AssociationDefinition} {id : UInt16} {keys keys' : KeyBuffer}
  {alice bob : Channel KeyBuffer}

/-- A channel has the contexts of its definition, and they are fit for it. -/
theorem ofDefinition_eq_ok_iff {K : Type} {keys : K} {c : Channel K} :
    ofDefinition id d keys = .ok c ↔ ∃ association, Association.ofDefinition d = .ok association
      ∧ unfit? association = none ∧ c = { id, association, keys } := by
  rw [ofDefinition]
  constructor
  · intro h
    split at h
    · cases h
    · next association hassociation =>
      rw [ofAssociation] at h
      split at h
      · cases h
      · next hfit => exact ⟨association, hassociation, hfit, (Except.ok.inj h).symm⟩
  · rintro ⟨association, hassociation, hfit, rfl⟩
    rw [hassociation]
    dsimp only
    rw [ofAssociation, hfit]

theorem ofDefinition_eq_ok (h : ofDefinition id d keys = .ok alice) :
    ∃ association, Association.ofDefinition d = .ok association
      ∧ alice = { id, association, keys } := by
  obtain ⟨association, hassociation, -, halice⟩ := ofDefinition_eq_ok_iff.1 h
  exact ⟨association, hassociation, halice⟩

theorem ofAssociation_of_authenticates {association : Association}
    (hin : association.authenticationIncoming.Authenticates)
    (hout : association.authenticationOutgoing.Authenticates) :
    ofAssociation id association keys = .ok { id, association, keys } := by
  simp [ofAssociation, unfit?, hin.consumesKeyPerByte_eq, hout.consumesKeyPerByte_eq]

/-- Where one end can be made, so can the other, and they fit together. -/
theorem exists_opposite (hd : d.Reliable) (halice : ofDefinition id d keys = .ok alice)
    (keys' : KeyBuffer) {codec : Codec} (hcodec : codec.Restores) :
    ∃ bob, ofDefinition id d.mirrored keys' = .ok bob ∧ bob.keys = keys'
      ∧ (alice.withCodec codec).Opposite (bob.withCodec codec) := by
  obtain ⟨a, ha, rfl⟩ := ofDefinition_eq_ok halice
  have hcreate := Association.ofDefinition_eq_ok_iff.1 ha
  have hin := Context.authenticates_of_create hd.authenticationIncoming
    (hcreate .authenticationIncoming)
  have hout := Context.authenticates_of_create hd.authenticationOutgoing
    (hcreate .authenticationOutgoing)
  refine ⟨{ id, association := a.mirrored, keys := keys' }, ?_, rfl, ?_⟩
  · rw [ofDefinition, Association.ofDefinition_mirrored ha]
    exact ofAssociation_of_authenticates hout hin
  · exact {
      id_eq := rfl
      codec_eq := rfl
      authentication_eq := rfl
      encryption_eq := rfl
      authentication_fit := hout
      encryption_fit := Context.encrypts_of_create hd.encryptionOutgoing (hcreate .encryptionOutgoing)
      restores := hcodec }

/-- Deliveries alone use no key. -/
theorem receives_deliveries {stream : Bytes} {used : List UInt32} (h : bob.keys.Receives stream used)
    (chunks : List Bytes)
    (hbound : (stream ++ chunks.flatten).length / bob.keys.quantum < 2 ^ 32 - 1) :
    (bob.receiveAll (chunks.map .keys)).keys.Receives (stream ++ chunks.flatten) used := by
  have hdelivered : Arrival.delivered (chunks.map .keys) = chunks.flatten := by
    clear hbound
    induction chunks with
    | nil => rfl
    | cons bytes rest ih => rw [List.map_cons, Arrival.delivered, ih, List.flatten_cons]
  -- the record of the run is empty, whatever the channel
  have hunused : ∀ bob : Channel KeyBuffer, bob.quantaUsedByAll (chunks.map .keys) = [] := by
    clear hbound hdelivered
    induction chunks with
    | nil => exact fun _ => rfl
    | cons bytes rest ih => exact fun bob => ih (bob.receive (.keys bytes))
  have hrun := receives_receiveAll h (chunks.map .keys) (by rwa [hdelivered])
  rwa [hdelivered, hunused, List.append_nil] at hrun

/-- What Alice sends is sent with keys of the stream that she was delivered, and no quantum twice. -/
theorem exists_last_sendings (alice : Channel KeyBuffer) {q : Nat}
    (hkeys : alice.keys.quantum = q ∧ alice.keys.outgoing = .empty) (hid : alice.nextMessageId = 1)
    (dispatches : List Dispatch) {stream : Bytes} (hstream : Dispatch.delivered dispatches <+: stream)
    (hbound : stream.length / q < 2 ^ 32 - 1) :
    (∃ last ≤ stream.length / q,
        List.Sublist ((alice.sendings dispatches).flatMap (·.quanta q)) (idsFrom 1 last))
      ∧ ∀ s ∈ alice.sendings dispatches, s.SentFrom q stream := by
  obtain ⟨rest, rfl⟩ := hstream
  have hle : (Dispatch.delivered dispatches).length / q
      ≤ (Dispatch.delivered dispatches ++ rest).length / q := Nat.div_le_div_right (by simp)
  have hsender : Sender q [] 0 0 alice := by
    refine ⟨hkeys.1, ?_, by rw [hid, UInt32.toNat_one]⟩
    rw [KeyBuffer.Sends, hkeys.2]
    exact KeyStock.tracks_empty _
  obtain ⟨⟨last, hlast, hsub⟩, hsent, -⟩ := hsender.sendings dispatches (by
    rw [List.nil_append]
    omega)
  rw [List.nil_append] at hlast hsent
  exact ⟨⟨last, Nat.le_trans hlast hle, hsub⟩, fun s hs => (hsent s hs).append rest⟩

/-- Whatever Alice is told to do: the other end can be made, and the messages that she sends arrive
    there as she was given them, once it has received the keys, in whatever order and however many of
    them are lost. -/
theorem delivery (hd : d.Reliable) (halice : ofDefinition id d keys = .ok alice) {q : Nat}
    (hkeys : keys.quantum = q ∧ keys.outgoing = .empty)
    (hkeys' : keys'.quantum = q ∧ keys'.incoming = .empty) {codec : Codec} (hcodec : codec.Restores)
    (dispatches : List Dispatch) (chunks : List Bytes)
    (hstream : Dispatch.delivered dispatches <+: chunks.flatten)
    (hbound : chunks.flatten.length / q < 2 ^ 32 - 1) {arrivals : List Sending}
    (harrivals : List.Subperm arrivals ((alice.withCodec codec).sendings dispatches)) :
    ∃ bob, ofDefinition id d.mirrored keys' = .ok bob
      ∧ List.Forall₂ Arrives arrivals
        (((bob.withCodec codec).receiveAll (chunks.map .keys)).receiveWires
          (arrivals.map (·.encoded.toWire))) := by
  obtain ⟨bob, hbob, rfl, hopposite⟩ := exists_opposite hd halice keys' hcodec
  refine ⟨bob, hbob, ?_⟩
  obtain ⟨a, -, rfl⟩ := ofDefinition_eq_ok halice
  obtain ⟨⟨last, hlast, hsub⟩, hsent⟩ :=
    exists_last_sendings (withCodec { id, association := a, keys } codec) hkeys rfl dispatches hstream
      hbound
  -- the part of it that arrives, in the order in which it was sent
  obtain ⟨ordered, hperm, hpart⟩ := harrivals
  have hmem : ∀ s ∈ arrivals, s ∈ (withCodec { id, association := a, keys } codec).sendings dispatches :=
    fun s hs => hpart.subset (hperm.symm.subset hs)
  have hquanta : List.Sublist (ordered.flatMap (·.quanta q)) (idsFrom 1 last) :=
    (hpart.flatMap _).trans hsub
  have hreorder := hperm.flatMap_right (·.quanta q)
  -- the other end with all keys
  have hstart : (bob.withCodec codec).keys.Receives [] [] := by
    rw [KeyBuffer.Receives, withCodec, hkeys'.2]
    exact KeyStock.tracks_empty _
  have hfull := receives_deliveries hstart chunks (by
    rw [withCodec, hkeys'.1]
    exact hbound)
  refine arrives_receiveWires (by rw [quantum_receiveAll]; exact hkeys'.1) hfull hbound ?_ ?_ ?_ ?_
  · intro s hs
    obtain ⟨earlier, hid, hassociation, hcodec', hdraft⟩ := draft_of_mem_sendings (hmem s hs)
    refine ⟨earlier, hopposite.congr ⟨hid, hassociation, hcodec'⟩ ?_, hdraft⟩
    rw [frame_receiveAll]
    exact ⟨rfl, rfl, rfl⟩
  · exact fun s hs => hsent s (hmem s hs)
  · exact hreorder.nodup_iff.1 ((KeyStock.nodup_idsFrom 1 (by omega)).sublist hquanta)
  · intro id hid
    have hused := hquanta.subset (hreorder.symm.subset hid)
    rw [KeyBuffer.mem_idsFrom_one (by omega)] at hused
    exact ⟨hused.1, Nat.le_trans hused.2 hlast, List.not_mem_nil⟩

/-- What is sent is encrypted with a pad and authenticated with a hash. -/
def taggedDefinition : AssociationDefinition where
  authenticationIncoming := "null"
  authenticationOutgoing := "evhash-32:00000002"
  encryptionIncoming := "null"
  encryptionOutgoing := "xor"

/-- The end that sends with it, with no keys yet. -/
def taggedSender : Channel KeyBuffer :=
  { padSender with
    association := padSender.association.set .authenticationOutgoing
      { algorithm := .evaluationHash hashByX } }

/-- Keys, a message that is encrypted, and one that is not. -/
def taggedDispatches : List Dispatch :=
  [.keys (List.replicate 22 5), .message ((Message.ofPayload 9 [7]).withEncryption true), .threshold 0,
    .message (.ofPayload 4 [8, 9])]

/-- Both of its messages are sent: the first one takes four of the five quanta, the second one the last. -/
theorem length_sendings_taggedDispatches : (taggedSender.sendings taggedDispatches).length = 2 := by
  have hauth : taggedSender.association.authenticationOutgoing.Authenticates := ⟨rfl, Or.inr ⟨_, rfl⟩⟩
  have henc : taggedSender.association.encryptionOutgoing.Encrypts := ⟨rfl, Or.inr rfl⟩
  have hfull : KeyBuffer.Reached 4 ([] ++ List.replicate 22 5) []
      (KeyBuffer.byFour.pushOutgoing (List.replicate 22 5)) := .pushOutgoing (.new rfl) _
  have hrest := (hfull.fetchOutgoing 10).fetchOutgoing 4
  obtain ⟨n, hsends⟩ := hfull.exists_sends (by decide)
  obtain ⟨n', hsends'⟩ := hrest.exists_sends (by decide)
  have hkeys : (KeyBuffer.byFour.pushOutgoing (List.replicate 22 5)).outgoingAvailable [10, 4] = true := by
    cbv
  have hkeys' : (KeySource.fetchOutgoing (KeySource.fetchOutgoing
      (KeyBuffer.byFour.pushOutgoing (List.replicate 22 5)) 10).2 4).2.outgoingAvailable [0, 4] = true := by
    cbv
  obtain ⟨⟨s, hfirst⟩, hnext⟩ := sending_of_available
    (c := taggedSender.dispatch (.keys (List.replicate 22 5)))
    (m := (Message.ofPayload 9 [7]).withEncryption true) hauth henc hsends (by decide) (by decide +kernel)
    hkeys
  rw [taggedDispatches, sendings, sendings, hfirst, hnext]
  obtain ⟨⟨s', hsecond⟩, -⟩ := sending_of_available (m := .ofPayload 4 [8, 9]) (k := 0) (l := 4)
    (c := { taggedSender with
      keys := (KeySource.fetchOutgoing (KeySource.fetchOutgoing
        (KeyBuffer.byFour.pushOutgoing (List.replicate 22 5)) 10).2 4).2
      nextMessageId := 2
      compressionThreshold := 0 })
    hauth henc hsends' (by rw [hrest.quantum_eq]; decide) (by decide +kernel) hkeys'
  exact congrArg (fun sent => ([s] ++ (sent ++ [])).length) hsecond

/-- The two messages that `taggedSender` sends arrive in the wrong order. -/
theorem delivery_taggedDispatches :
    ∃ bob, ofDefinition 1 taggedDefinition.mirrored taggedSender.keys = .ok bob
      ∧ (taggedSender.sendings taggedDispatches).length = 2
      ∧ List.Forall₂ Arrives (taggedSender.sendings taggedDispatches).reverse
        ((bob.receiveAll [.keys (List.replicate 22 5)]).receiveWires
          ((taggedSender.sendings taggedDispatches).reverse.map (·.encoded.toWire))) := by
  have hreliable : taggedDefinition.Reliable := {
    authenticationIncoming := ⟨.named "null", by rfl, by decide⟩
    authenticationOutgoing :=
      ⟨{ algorithm := "evhash", variant := some 32, initKey := ⟨[0, 0, 0, 2]⟩ }, by rfl, by decide⟩
    encryptionIncoming := ⟨.named "null", by rfl, by decide⟩
    encryptionOutgoing := ⟨.named "xor", by rfl, by decide⟩ }
  have halice : ofDefinition 1 taggedDefinition taggedSender.keys = .ok taggedSender := by rfl
  have hreversed := (List.reverse_perm (taggedSender.sendings taggedDispatches)).subperm
  obtain ⟨bob, hbob, harrive⟩ := delivery hreliable halice ⟨rfl, rfl⟩ ⟨rfl, rfl⟩
    Codec.restores_stored taggedDispatches [List.replicate 22 5] (by decide) (by decide) hreversed
  obtain ⟨_, -, rfl⟩ := ofDefinition_eq_ok hbob
  exact ⟨_, hbob, length_sendings_taggedDispatches, harrive⟩

end Channel

end OneTimeChannel

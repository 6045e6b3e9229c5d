/-
  A channel that is set up from a configuration does not break inside.

  What can go wrong on it has its cause outside: a message is malformed, keys are missing, or a tag is
  wrong.  Its contexts never fail.  They are ready (`Context.Ready`), that is, not finalized and with no
  data waiting in a pad.  So they are their own copies, they take in whatever they are given, and they
  accept every key of the length that they ask for; and a key buffer hands out keys of just this length,
  as long as no key takes more quanta than there are ids.

  A run does not touch the contexts (`Sound.run`), so all of this is true after any run.  What a ready
  channel answers is said for sending by `Sound.kind_of_encode_eq_error` and for receiving by
  `Sound.decode_eq_error`.
-/
import OneTimeChannel.Config
import OneTimeChannel.Proofs.Channel.Retry
import OneTimeChannel.Proofs.Cipher.Recreation

namespace OneTimeChannel

open KeyBuffer (Sends Receives)

/-- What happens at one end of a tunnel. -/
inductive Event where
  /-- Something is to be sent, or could be. -/
  | dispatch (d : Dispatch)
  /-- Key bytes to receive with are delivered. -/
  | keys (bytes : Bytes)
  /-- Bytes come from the network, to be read as a message with a tag of the given length. -/
  | wire (bytes : Bytes) (tagLength : Nat)

namespace Event

/-- The key bytes to send with that are delivered. -/
def sent : List Event → Bytes
  | [] => []
  | dispatch d :: rest => Dispatch.delivered [d] ++ sent rest
  | keys _ :: rest => sent rest
  | wire _ _ :: rest => sent rest

/-- The key bytes to receive with that are delivered. -/
def received : List Event → Bytes
  | [] => []
  | dispatch _ :: rest => received rest
  | keys bytes :: rest => bytes ++ received rest
  | wire _ _ :: rest => received rest

theorem sent_cons (e : Event) (rest : List Event) : sent (e :: rest) = sent [e] ++ sent rest := by
  cases e <;> simp [sent]

theorem received_cons (e : Event) (rest : List Event) :
    received (e :: rest) = received [e] ++ received rest := by
  cases e <;> simp [received]

end Event

/-- The channel after an event; bytes that are too few for a message do nothing. -/
def Channel.meet (c : Channel KeyBuffer) : Event → Channel KeyBuffer
  | .dispatch d => c.dispatch d
  | .keys bytes => c.receive (.keys bytes)
  | .wire bytes tagLength =>
    match Message.ofWire bytes tagLength with
    | .ok m => c.receive (.message m)
    | .error _ => c

/-- The channel after several events, one after the other. -/
def Channel.run (c : Channel KeyBuffer) (events : List Event) : Channel KeyBuffer :=
  events.foldl meet c

/-! ## Contexts -/

namespace Context

variable {c : Context} {text : String}

/-- A context that was not finalized, with no data in it that waits for a key. -/
structure Ready (c : Context) : Prop where
  finalized_eq : c.finalized = false
  data_eq : ∀ data, c.algorithm = .pad data → data = []

theorem Authenticates.ready (h : c.Authenticates) : c.Ready where
  finalized_eq := h.finalized_eq
  data_eq := by
    intro data halgorithm
    rcases h.algorithm_eq with hnull | ⟨hash, hhash⟩
    · rw [hnull] at halgorithm
      cases halgorithm
    · rw [hhash] at halgorithm
      cases halgorithm

/-- A ready context is its own copy. -/
theorem Ready.copy_eq (h : c.Ready) : c.copy = .ok c := by
  refine copy_of_not_hidesZeros ?_
  rintro ⟨-, data, halgorithm, hne, -⟩
  exact hne (h.data_eq data halgorithm)

theorem finalized_of_create (h : create text = .ok c) : c.finalized = false := by
  rw [create] at h
  split at h
  · exact (ofScheme_eq_ok h).1
  · cases h

/-- A context that is made from a scheme without a state is ready. -/
theorem ready_of_create (hstate : ∀ s, Scheme.parse text = .ok s → s.state = [])
    (h : create text = .ok c) : c.Ready where
  finalized_eq := finalized_of_create h
  data_eq := by
    intro data hdata
    rw [create] at h
    split at h
    · next s hparse =>
      obtain ⟨-, a, ha, hcases⟩ := ofScheme_eq_ok h
      rw [hstate s hparse] at hcases
      rcases algorithmOf_eq_ok ha with ⟨-, rfl⟩ | ⟨-, rfl⟩ | ⟨-, hash, -, rfl⟩
      · rcases hcases with ⟨-, heq⟩ | hcases
        · rw [heq] at hdata
          cases hdata
        · rw [(withState_cases hcases).1 rfl] at hdata
          cases hdata
      · rcases hcases with ⟨-, heq⟩ | hcases
        · rw [heq] at hdata
          exact (Algorithm.pad.inj hdata).symm
        · rw [(withState_cases hcases).2.1 [] rfl] at hdata
          exact (Algorithm.pad.inj hdata).symm
      · rcases hcases with ⟨-, heq⟩ | hcases
        · rw [heq] at hdata
          cases hdata
        · obtain ⟨hash', hhash'⟩ := (withState_cases hcases).2.2 hash rfl
          rw [hhash'] at hdata
          cases hdata
    · cases h

/-- A context that uses no key byte for a byte of data makes tags of one size. -/
theorem authenticates_of_consumesKeyPerByte_eq (hfin : c.finalized = false)
    (h : c.consumesKeyPerByte = false) : c.Authenticates where
  finalized_eq := hfin
  algorithm_eq := by
    rw [consumesKeyPerByte] at h
    cases halgorithm : c.algorithm with
    | null => exact Or.inl rfl
    | pad data =>
      rw [halgorithm] at h
      cases h
    | evaluationHash hash => exact Or.inr ⟨hash, rfl⟩

/-- A key is no longer than a tag or than what it masks. -/
theorem Ready.finalKeySize_absorbed_le (h : c.Ready) (data : Bytes) :
    (c.absorbed data).finalKeySize ≤ max 32 data.length := by
  rw [absorbed, finalKeySize]
  cases halgorithm : c.algorithm with
  | null => exact Nat.zero_le _
  | pad held =>
    rw [h.data_eq held halgorithm]
    exact Nat.le_max_right _ _
  | evaluationHash hash => exact Nat.le_trans hash.bytes_le (Nat.le_max_left _ _)

theorem Authenticates.finalKeySize_le (h : c.Authenticates) : c.finalKeySize ≤ 32 := by
  rw [finalKeySize]
  rcases h.algorithm_eq with hnull | ⟨hash, hhash⟩
  · rw [hnull]
    exact Nat.zero_le _
  · rw [hhash]
    exact hash.bytes_le

/-- Under a key of the length that is asked for there is a tag, and it has the size that is announced. -/
theorem Authenticates.exists_tagOf (h : c.Authenticates) {key : Key}
    (hkey : key.length = c.finalKeySize) (header : Header) (payload : Bytes) :
    ∃ tag, Channel.tagOf c header payload key = .ok tag ∧ tag.length = c.resultSize := by
  -- taking in data changes neither of the two sizes
  have hsizes : (Channel.sealedAlgorithm c header payload).finalKeySize = c.finalKeySize
      ∧ (Channel.sealedAlgorithm c header payload).resultSize = c.resultSize := by
    rw [Channel.sealedAlgorithm, finalKeySize, resultSize]
    rcases h.algorithm_eq with hnull | ⟨hash, hhash⟩
    · rw [hnull]
      exact ⟨rfl, rfl⟩
    · rw [hhash]
      exact ⟨rfl, rfl⟩
  have haccepts := Algorithm.acceptsFinalKey_of_length (hkey.trans hsizes.1.symm)
  exact ⟨_, Channel.tagOf_eq h.finalized_eq haccepts,
    (Algorithm.length_result haccepts).trans hsizes.2⟩

end Context

/-- A key to receive with has the length that was asked for. -/
theorem KeyBuffer.Receives.length_of_fetchIncoming {b b' : KeyBuffer} {stream : Bytes}
    {used : List UInt32} {id : UInt32} {length : Nat} {key : Key} (h : b.Receives stream used)
    (hbound : stream.length / b.quantum < 2 ^ 32 - 1) (hlength : length < 2 ^ 32)
    (hfetch : KeySource.fetchIncoming b id length = (.ok key, b')) : key.length = length := by
  have hpieces : pieceCount b.quantum length < 2 ^ 32 :=
    Nat.lt_of_le_of_lt (pieceCount_le b.quantum_pos length) hlength
  exact (KeyStock.Tracks.key_of_take h b.quantum_pos hbound hpieces
    (fetchIncoming_eq_ok_iff.1 hfetch).1).2

namespace Channel

/-! ## Sound channels -/

/-- The contexts for authentication make tags of one size, those for encryption are ready, and
    the compressor does not fail on a payload. -/
structure Sound {K : Type} (c : Channel K) : Prop where
  authenticationIncoming : c.association.authenticationIncoming.Authenticates
  authenticationOutgoing : c.association.authenticationOutgoing.Authenticates
  encryptionIncoming : c.association.encryptionIncoming.Ready
  encryptionOutgoing : c.association.encryptionOutgoing.Ready
  compress : ∀ content, content.length ≤ maxPayload → ∃ packed, c.codec.compress content = .ok packed

theorem fresh_of_ready {K : Type} {c : Channel K} (slot : Slot)
    (h : (c.association.get slot).Ready) : c.fresh slot = .ok (c.association.get slot) := by
  rw [fresh, h.copy_eq]

/-- Where nothing but a context can be the cause of a fault, no fault is without one. -/
theorem fault?_of_kind_ne {failure : Failure} (h : failure.kind ≠ .contextFailed) :
    failure.fault? = none := by
  cases failure <;> first | rfl | exact absurd rfl h

/-! ## Sending -/

section Sending

variable {K : Type} {c : Channel K} {m : Message} {failure : Failure}

/-- A message that is not drafted is malformed. -/
theorem Sound.kind_of_draft_eq_error (hc : c.Sound) (h : c.draft m = .error failure) :
    failure.kind = .malformed := by
  have hauth : c.fresh .authenticationOutgoing = .ok c.association.authenticationOutgoing :=
    fresh_of_ready .authenticationOutgoing hc.authenticationOutgoing.ready
  have henc : c.fresh .encryptionOutgoing = .ok c.association.encryptionOutgoing :=
    fresh_of_ready .encryptionOutgoing hc.encryptionOutgoing
  have habsorb : ∀ payload, ∃ r, absorbPayload m c.association.encryptionOutgoing payload = .ok r :=
    fun payload =>
      ⟨_, absorbPayload_eq_ok_iff.2 ⟨fun _ => hc.encryptionOutgoing.finalized_eq, rfl⟩⟩
  unfold draft at h
  simp only [bind, Except.bind, pure, Except.pure, throw, throwThe, MonadExceptOf.throw, hauth,
    henc] at h
  split at h
  · cases h
    rfl
  split at h
  · cases h
    rfl
  next hlength =>
  split at h
  · cases h
    rfl
  -- packing is where the compressor would fail
  have hpack : ∀ compressed, ∃ payload, c.pack m.payload compressed = .ok payload := by
    intro compressed
    obtain ⟨packed, hpacked⟩ := hc.compress m.payload (Nat.not_lt.1 hlength)
    rw [pack, hpacked]
    split
    · exact ⟨packed, rfl⟩
    · exact ⟨m.payload, rfl⟩
  obtain ⟨payload, hpayload⟩ := hpack (c.compresses m c.association.encryptionOutgoing)
  obtain ⟨r, hr⟩ := habsorb payload
  simp only [hpayload, hr] at h
  split at h
  · cases h
    rfl
  · cases h

/-- The contexts of a draft have not been used up. -/
theorem Sound.contexts_of_draft (hc : c.Sound) {d : Draft} (h : c.draft m = .ok d) :
    d.authentication.Authenticates
      ∧ ∀ context, d.encryption = some context → context.finalized = false := by
  obtain ⟨authentication, encryption, payload, hdrafts, rfl⟩ := draft_eq_ok_iff.1 h
  have hauth := hdrafts.authentication_eq
  rw [fresh_of_ready .authenticationOutgoing hc.authenticationOutgoing.ready] at hauth
  cases hauth
  refine ⟨hc.authenticationOutgoing, ?_⟩
  intro context hcontext
  rw [drafted] at hcontext
  split at hcontext
  · next hencrypts =>
    cases hcontext
    exact hdrafts.finalized_eq hencrypts
  · cases hcontext

end Sending

section Completing

variable {d : Draft} {keys : KeyBuffer} {stream : Bytes} {n : Nat}

/-- A draft is encrypted under a key of the length that it asks for, which leaves its context for
    authentication alone. -/
theorem exists_encrypt {id : UInt32} {key : Key} {keys' : KeyBuffer}
    (henc : ∀ context, d.encryption = some context → context.finalized = false)
    (hfetch : KeySource.fetchOutgoing keys d.encryptionKeyLength = (.ok (id, key), keys'))
    (hlength : key.length = d.encryptionKeyLength) :
    ∃ d', d.encrypt keys = (.ok d', keys') ∧ d'.authentication = d.authentication := by
  cases hcontext : d.encryption with
  | none =>
    have hnone : KeySource.fetchOutgoing keys d.encryptionKeyLength = (.ok (0, .empty), keys) := by
      rw [Draft.encryptionKeyLength, hcontext]
      rfl
    rw [hnone] at hfetch
    obtain rfl := (Prod.mk.inj hfetch).2
    exact ⟨d, encrypt_eq_ok_iff.2 (Or.inl ⟨hcontext, rfl, rfl⟩), rfl⟩
  | some context =>
    have hsize : d.encryptionKeyLength = context.finalKeySize := by
      rw [Draft.encryptionKeyLength, hcontext]
    rw [hsize] at hfetch hlength
    exact ⟨_, encrypt_eq_ok_iff.2 (Or.inr ⟨context, id, key, hcontext, hfetch,
      henc context hcontext, Algorithm.acceptsFinalKey_of_length hlength, rfl⟩), rfl⟩

/-- A draft whose keys are there is completed. -/
theorem exists_complete (hauth : d.authentication.Authenticates)
    (henc : ∀ context, d.encryption = some context → context.finalized = false)
    (hkeys : keys.Sends stream n) (hbound : stream.length / keys.quantum < 2 ^ 32 - 1)
    (havailable : keys.outgoingAvailable d.keyLengths = true) :
    ∃ encoded keys', d.complete keys = (.ok encoded, keys') := by
  obtain ⟨⟨id, key⟩, between, ⟨id', key'⟩, last, hfirst, hsecond⟩ :=
    hkeys.exists_fetchOutgoing_both hbound havailable
  have hpieces : ∀ length ∈ d.keyLengths, pieceCount keys.quantum length < 2 ^ 32 :=
    fun length hmem => hkeys.pieceCount_lt hbound havailable hmem
  have hquantum : between.quantum = keys.quantum := by
    have hframe := (KeyBuffer.fetchOutgoing_frame keys d.encryptionKeyLength).1
    rwa [hfirst] at hframe
  have hlength := (hkeys.key_of_fetchOutgoing hbound
    (hpieces d.encryptionKeyLength (by simp [Draft.keyLengths])) hfirst).2
  have hlength' := ((hkeys.fetchOutgoing hbound hfirst).1.key_of_fetchOutgoing (by rwa [hquantum])
    (by rw [hquantum]; exact hpieces d.authenticationKeyLength (by simp [Draft.keyLengths]))
    hsecond).2
  obtain ⟨d', hencrypt, hsame⟩ := exists_encrypt henc hfirst hlength
  obtain ⟨tag, htag, hsize⟩ := hauth.exists_tagOf hlength' (d'.sealedHeader id') d'.payload
  have hauthenticate : d'.authenticate between
      = (.ok { header := d'.sealedHeader id', payload := d'.payload, tag }, last) := by
    refine authenticate_eq_ok_iff.2 ⟨id', key', tag, ?_, ?_, ?_, rfl⟩
    · rw [Draft.authenticationKeyLength, hsame]
      exact hsecond
    · rw [hsame]
      exact htag
    · rw [hsame]
      exact hsize
  exact ⟨_, last, complete_eq_ok_iff.2 ⟨d', between, hencrypt, hauthenticate⟩⟩

/-- A message that is not encoded is malformed or lacks keys. -/
theorem Sound.kind_of_encode_eq_error {c : Channel KeyBuffer} {m : Message} {failure : Failure}
    (hc : c.Sound) (hkeys : c.keys.Sends stream n)
    (hbound : stream.length / c.keys.quantum < 2 ^ 32 - 1)
    (h : (c.encode m).2 = .error failure) :
    failure.kind = .malformed ∨ failure.kind = .keysMissing := by
  cases hdraft : c.draft m with
  | error cause =>
    rw [encode_of_refused hdraft] at h
    cases h
    exact Or.inl (hc.kind_of_draft_eq_error hdraft)
  | ok d =>
    cases havailable : KeySource.outgoingAvailable c.keys d.keyLengths with
    | false =>
      rw [encode_of_keysMissing hdraft havailable] at h
      cases h
      exact Or.inr rfl
    | true =>
      obtain ⟨hauth, henc⟩ := hc.contexts_of_draft hdraft
      obtain ⟨encoded, keys', hcomplete⟩ := exists_complete hauth henc hkeys hbound havailable
      rw [encode_of_complete_ok hdraft havailable hcomplete] at h
      cases h

end Completing

/-! ## Receiving -/

section Receiving

variable {c : Channel KeyBuffer} {m : Message} {failure : Failure} {stream : Bytes}
  {used : List UInt32}

/-- An examination fails because of the header, because nothing can be decrypted, or because of the
    length of the tag. -/
theorem Sound.examine_eq_error (hc : c.Sound) (h : c.examine m = .error failure) :
    failure = .badHeader
      ∨ failure = .noDecryption c.id m.header.messageId ∧ m.header.has .encrypted = true
        ∧ c.association.encryptionIncoming.isNull = true
      ∨ failure = c.forged m.header := by
  have hauth : c.fresh .authenticationIncoming = .ok c.association.authenticationIncoming :=
    fresh_of_ready .authenticationIncoming hc.authenticationIncoming.ready
  have henc : c.fresh .encryptionIncoming = .ok c.association.encryptionIncoming :=
    fresh_of_ready .encryptionIncoming hc.encryptionIncoming
  have hadd := Context.add_eq hc.encryptionIncoming.finalized_eq m.payload
  unfold examine at h
  simp only [bind, Except.bind, pure, Except.pure, throw, throwThe, MonadExceptOf.throw, hauth,
    henc, hadd] at h
  split at h
  · cases h
    exact Or.inl rfl
  split at h
  · next hnull =>
    cases h
    rw [Bool.and_eq_true] at hnull
    exact Or.inr (Or.inl ⟨rfl, hnull⟩)
  split at h
  · cases h
    exact Or.inr (Or.inr rfl)
  · split at h <;> cases h

/-- The contexts of an examination are those of the channel, and the keys that they ask for are fewer
    bytes than there are ids. -/
theorem Sound.examined_of_examine (hc : c.Sound) {e : Examined} (h : c.examine m = .ok e) :
    e = examined m c.association.authenticationIncoming c.association.encryptionIncoming
      ∧ e.authenticationKeyLength < 2 ^ 32 ∧ e.encryptionKeyLength < 2 ^ 32 := by
  obtain ⟨authentication, encryption, hexamines, rfl⟩ := examine_eq_ok_iff.1 h
  have hauth := hexamines.authentication_eq
  have henc := hexamines.encryption_eq
  rw [fresh_of_ready .authenticationIncoming hc.authenticationIncoming.ready] at hauth
  rw [fresh_of_ready .encryptionIncoming hc.encryptionIncoming] at henc
  cases hauth
  cases henc
  have hsize : c.association.authenticationIncoming.finalKeySize ≤ 32 :=
    hc.authenticationIncoming.finalKeySize_le
  refine ⟨rfl, ?_, ?_⟩
  · exact Nat.lt_of_le_of_lt hsize (by decide)
  · -- the length in the header says how long a payload can be
    have hpayload : m.payload.length < 2 ^ 32 := by
      have hadmits := hexamines.admits
      rw [admits, Bool.and_eq_true, Message.isLengthConsistent, beq_iff_eq] at hadmits
      have hlength := m.header.length.toNat_lt
      rw [hadmits.2, Message.encodedLength] at hlength
      omega
    have hle := hc.encryptionIncoming.finalKeySize_absorbed_le m.payload
    have hmax : max 32 m.payload.length < 2 ^ 32 := max_lt (by decide) hpayload
    rw [Examined.encryptionKeyLength, examined]
    split
    · next context hcontext =>
      split at hcontext
      · cases hcontext
        exact Nat.lt_of_le_of_lt hle hmax
      · cases hcontext
    · decide

/-- A payload is decrypted under a key of the length that is asked for. -/
theorem exists_decrypt {e : Examined} {keys keys' : KeyBuffer} {key : Key}
    (henc : ∀ context, e.encryption = some context → context.finalized = false)
    (hfetch : KeySource.fetchIncoming keys m.header.encryptionKeyId e.encryptionKeyLength
      = (.ok key, keys'))
    (hlength : key.length = e.encryptionKeyLength) :
    ∃ payload keys'', decrypt m e keys = (.ok payload, keys'') := by
  cases hcontext : e.encryption with
  | none => exact ⟨_, _, decrypt_eq_ok_iff.2 (Or.inl ⟨hcontext, rfl, rfl⟩)⟩
  | some context =>
    have hkey : key.length = context.finalKeySize := by
      rw [hlength, Examined.encryptionKeyLength, hcontext]
    exact ⟨_, keys', decrypt_eq_ok_iff.2 (Or.inr ⟨context, key, hcontext, hfetch,
      henc context hcontext, Algorithm.acceptsFinalKey_of_length hkey, rfl⟩)⟩

/-- A message whose keys are there is refused for its tag or for what it was compressed to. -/
theorem Sound.opened_eq_error (hc : c.Sound) (hkeys : c.keys.Receives stream used)
    (hbound : stream.length / c.keys.quantum < 2 ^ 32 - 1) {e : Examined} {keys' : KeyBuffer}
    (hexamine : c.examine m = .ok e)
    (havailable : c.keys.incomingAvailable (e.requests m.header) = true)
    (h : c.opened m e c.keys = (.error failure, keys')) :
    failure = c.forged m.header ∨ failure = .notDecompressed := by
  obtain ⟨hexamined, hsize, hsize'⟩ := hc.examined_of_examine hexamine
  obtain ⟨key, between, key', last, hfetch, hfetch'⟩ :=
    KeyBuffer.exists_fetchIncoming_both havailable
  have hquantum : between.quantum = c.keys.quantum :=
    (KeyBuffer.spends_of_fetchIncoming hfetch).quantum_eq
  have hlength := hkeys.length_of_fetchIncoming hbound hsize hfetch
  have hlength' := (hkeys.fetchIncoming hfetch).length_of_fetchIncoming (by rwa [hquantum]) hsize'
    hfetch'
  have hauth : e.authentication.Authenticates := by
    rw [hexamined]
    exact hc.authenticationIncoming
  have hfin : ∀ context, e.encryption = some context → context.finalized = false := by
    intro context hcontext
    rw [hexamined, examined] at hcontext
    split at hcontext
    · cases hcontext
      exact hc.encryptionIncoming.finalized_eq
    · cases hcontext
  obtain ⟨tag, htag, -⟩ := hauth.exists_tagOf hlength m.header m.payload
  obtain ⟨payload, keys₂, hdecrypt⟩ := exists_decrypt hfin hfetch' hlength'
  rcases Channel.opened_eq_error h with hverify | ⟨verified, hverify, hrest⟩
  · rcases verify_eq_error hverify with ⟨cause, hmissing, -⟩
      | ⟨_, hfetched, ⟨cause, hfailed, -⟩ | ⟨expected, -, -, hforged⟩⟩
    · rw [hfetch] at hmissing
      cases hmissing
    · rw [hfetch] at hfetched
      cases hfetched
      rw [htag] at hfailed
      cases hfailed
    · exact Or.inl hforged
  · obtain ⟨_, hfetched, -⟩ := verify_eq_ok_iff.1 hverify
    rw [hfetch] at hfetched
    cases hfetched
    rcases hrest with hfailed | ⟨_, -, hexpand⟩
    · rw [hdecrypt] at hfailed
      cases hfailed
    · exact Or.inr hexpand

/-- A message that is not decoded is malformed, lacks keys, or has a wrong tag, unless it is encrypted
    and nothing can be decrypted. -/
theorem Sound.decode_eq_error (hc : c.Sound) (hkeys : c.keys.Receives stream used)
    (hbound : stream.length / c.keys.quantum < 2 ^ 32 - 1) (h : (c.decode m).2 = .error failure) :
    failure.kind ≠ .contextFailed
      ∨ failure = .noDecryption c.id m.header.messageId ∧ m.header.has .encrypted = true
        ∧ c.association.encryptionIncoming.isNull = true := by
  cases hexamine : c.examine m with
  | error cause =>
    rw [decode_of_refused hexamine] at h
    cases h
    rcases hc.examine_eq_error hexamine with rfl | hnone | rfl
    · exact Or.inl (by decide)
    · exact Or.inr hnone
    · exact Or.inl (by rw [forged, Failure.kind]; decide)
  | ok e =>
    cases havailable : KeySource.incomingAvailable c.keys (e.requests m.header) with
    | false =>
      rw [decode_of_keysMissing hexamine havailable] at h
      cases h
      exact Or.inl (by rw [Failure.kind]; decide)
    | true =>
      rw [decode_of_available hexamine havailable] at h
      rcases hc.opened_eq_error hkeys hbound hexamine havailable (Prod.ext h rfl) with rfl | rfl
      · exact Or.inl (by rw [forged, Failure.kind]; decide)
      · exact Or.inl (by decide)

end Receiving

/-! ## Runs -/

section Runs

variable {c : Channel KeyBuffer} {q : Nat} {sent received : Bytes}

/-- No event changes the association of a channel or its codec. -/
theorem frame_meet (c : Channel KeyBuffer) (e : Event) :
    (c.meet e).association = c.association ∧ (c.meet e).codec = c.codec := by
  cases e with
  | dispatch d => exact (frame_dispatch c d).2
  | keys bytes => exact ⟨rfl, rfl⟩
  | wire bytes tagLength =>
    rw [meet]
    split
    · next m _ =>
      rw [receive, decode_fst]
      exact ⟨rfl, rfl⟩
    · exact ⟨rfl, rfl⟩

theorem Sound.meet (hc : c.Sound) (e : Event) : (c.meet e).Sound := by
  obtain ⟨hassociation, hcodec⟩ := frame_meet c e
  constructor
  · rw [hassociation]
    exact hc.authenticationIncoming
  · rw [hassociation]
    exact hc.authenticationOutgoing
  · rw [hassociation]
    exact hc.encryptionIncoming
  · rw [hassociation]
    exact hc.encryptionOutgoing
  · rw [hcodec]
    exact hc.compress

theorem reached_meet (h : KeyBuffer.Reached q sent received c.keys) (e : Event) :
    KeyBuffer.Reached q (sent ++ Event.sent [e]) (received ++ Event.received [e]) (c.meet e).keys := by
  cases e with
  | dispatch d =>
    simp only [Event.sent, Event.received, List.append_nil]
    exact reached_dispatch h d
  | keys bytes =>
    simp only [Event.sent, Event.received, List.append_nil]
    exact h.pushIncoming bytes
  | wire bytes tagLength =>
    simp only [Event.sent, Event.received, List.append_nil]
    rw [Channel.meet]
    split
    · exact reached_decode h _
    · exact h

/-- A channel that is sound stays so, and its keys are those that were delivered. -/
theorem Sound.run (hc : c.Sound) (h : KeyBuffer.Reached q sent received c.keys)
    (events : List Event) :
    (c.run events).Sound ∧ (c.run events).association = c.association
      ∧ KeyBuffer.Reached q (sent ++ Event.sent events) (received ++ Event.received events)
        (c.run events).keys := by
  induction events generalizing c sent received with
  | nil =>
    simp only [Event.sent, Event.received, List.append_nil]
    exact ⟨hc, rfl, h⟩
  | cons e rest ih =>
    obtain ⟨hsound, hassociation, hreached⟩ := ih (hc.meet e) (reached_meet h e)
    refine ⟨hsound, hassociation.trans (frame_meet c e).1, ?_⟩
    rw [Event.sent_cons, Event.received_cons, ← List.append_assoc, ← List.append_assoc]
    exact hreached

end Runs

end Channel

/-! ## Configurations -/

namespace TunnelConfig

variable {config : TunnelConfig} {a : Association}

/-- What is known of the association of a configuration that is valid. -/
theorem of_validate_eq_ok (h : config.validate = .ok a) :
    Association.ofDefinition config.association = .ok a
      ∧ a.authenticationIncoming.consumesKeyPerByte = false
      ∧ a.authenticationOutgoing.consumesKeyPerByte = false := by
  rw [validate] at h
  split at h
  · cases h
  split at h
  · cases h
  next a' hdefinition =>
  split at h
  · cases h
  next hfit =>
  cases h
  have hnone := List.find?_eq_none.1 hfit
  refine ⟨hdefinition, ?_, ?_⟩
  · exact Bool.eq_false_iff.2 (hnone .authenticationIncoming (by simp))
  · exact Bool.eq_false_iff.2 (hnone .authenticationOutgoing (by simp))

/-- The channel of a valid configuration whose schemes for encryption have no state. -/
theorem sound_of_validate {K : Type} {c : Channel K} (hvalid : config.validate = .ok a)
    (hstate : ∀ slot ∈ [Slot.encryptionIncoming, .encryptionOutgoing], ∀ s,
      Scheme.parse (config.association.get slot) = .ok s → s.state = [])
    (hassociation : c.association = a)
    (hcompress : ∀ content, content.length ≤ maxPayload →
      ∃ packed, c.codec.compress content = .ok packed) : c.Sound := by
  obtain ⟨hdefinition, hincoming, houtgoing⟩ := of_validate_eq_ok hvalid
  have hcreate := Association.ofDefinition_eq_ok_iff.1 hdefinition
  subst hassociation
  constructor
  · exact Context.authenticates_of_consumesKeyPerByte_eq
      (Context.finalized_of_create (hcreate .authenticationIncoming)) hincoming
  · exact Context.authenticates_of_consumesKeyPerByte_eq
      (Context.finalized_of_create (hcreate .authenticationOutgoing)) houtgoing
  · exact Context.ready_of_create (hstate .encryptionIncoming (by simp)) (hcreate .encryptionIncoming)
  · exact Context.ready_of_create (hstate .encryptionOutgoing (by simp)) (hcreate .encryptionOutgoing)
  · exact hcompress

/-- A configuration that is valid, with no state in its schemes for encryption, has a plan for its keys
    and describes a channel.  Whatever happens at this end after that, and whatever is tried next: a
    message that is not encoded is not the fault of a context; bytes from the network are either too few
    or read as they are; and where a message from there is not decoded because of a context, it is encrypted
    and there is nothing to decrypt it with.  In no case has a precondition of the layers below been
    violated. -/
theorem never_breaks_inside (hvalid : config.validate = .ok a)
    (hstate : ∀ slot ∈ [Slot.encryptionIncoming, .encryptionOutgoing], ∀ s,
      Scheme.parse (config.association.get slot) = .ok s → s.state = [])
    {z : Codec} (hcompress : ∀ content, content.length ≤ maxPayload →
      ∃ packed, z.compress content = .ok packed)
    {q : Nat} {sent received : Bytes} {keys : KeyBuffer}
    (hkeys : KeyBuffer.Reached q sent received keys) :
    (∃ plan, config.keyPlan = .ok plan)
      ∧ ∃ c, config.toChannel keys = .ok c
        ∧ ∀ events, (sent ++ Event.sent events).length / q < 2 ^ 32 - 1 →
          (received ++ Event.received events).length / q < 2 ^ 32 - 1 →
          ∀ afterwards, afterwards = (c.withCodec z).run events →
          (∀ m failure, (afterwards.encode m).2 = .error failure →
            failure.kind ≠ .contextFailed ∧ failure.fault? = none)
          ∧ ∀ bytes tagLength,
            (∀ e, Message.ofWire bytes tagLength = .error e → bytes.length < headerSize + tagLength)
            ∧ ∀ m, Message.ofWire bytes tagLength = .ok m →
              m.toWire = bytes ∧ m.tag.length = tagLength
                ∧ ∀ failure, (afterwards.decode m).2 = .error failure → failure.fault? = none
                  ∧ (failure.kind = .contextFailed →
                    m.header.has .encrypted = true ∧ a.encryptionIncoming.isNull = true) := by
  constructor
  · have hdefinition := (of_validate_eq_ok hvalid).1
    exact ⟨KeyPlan.ofAssociation a, by rw [keyPlan, KeyPlan.ofDefinition, hdefinition]; rfl⟩
  let c : Channel KeyBuffer :=
    { id := config.channelId, association := a, keys
      compressionThreshold := config.compressionThreshold }
  have hchannel : config.toChannel keys = .ok c := by
    rw [toChannel, hvalid]
  refine ⟨c, hchannel, ?_⟩
  intro events hsent hreceived afterwards hafterwards
  have hstart : (c.withCodec z).Sound := sound_of_validate hvalid hstate rfl hcompress
  obtain ⟨hsound, hassociation, hreached⟩ := hstart.run hkeys events
  rw [← hafterwards] at hsound hassociation hreached
  obtain ⟨n, hsends⟩ := hreached.exists_sends hsent
  obtain ⟨used, hreceives⟩ := hreached.exists_receives hreceived
  have hquantum : afterwards.keys.quantum = q := hreached.quantum_eq
  constructor
  · intro m failure hfailure
    have hkind : failure.kind ≠ .contextFailed := by
      rcases hsound.kind_of_encode_eq_error hsends (by rwa [hquantum]) hfailure with hkind | hkind
      · rw [hkind]
        decide
      · rw [hkind]
        decide
    exact ⟨hkind, Channel.fault?_of_kind_ne hkind⟩
  · intro bytes tagLength
    constructor
    · intro e he
      exact (Message.ofWire_eq_error_iff.1 he).1
    · intro m hm
      obtain ⟨hwire, htag⟩ := Message.ofWire_eq_ok_iff.1 hm
      refine ⟨hwire, htag, ?_⟩
      intro failure hfailure
      rcases hsound.decode_eq_error hreceives (by rwa [hquantum]) hfailure with hkind | ⟨rfl, hnone⟩
      · exact ⟨Channel.fault?_of_kind_ne hkind, fun hcontext => absurd hcontext hkind⟩
      · rw [hassociation] at hnone
        exact ⟨rfl, fun _ => hnone⟩

/-- A configuration that encrypts what is sent and has nothing to decrypt with. -/
def outwardPad : TunnelConfig where
  channelId := 1
  encrypt := true
  association := { AssociationDefinition.null with encryptionOutgoing := "xor" }

/-- The contexts that it describes. -/
def outwardContexts : Association :=
  { Slots.replicate { algorithm := .null } with encryptionOutgoing := { algorithm := .pad [] } }

theorem validate_outwardPad : outwardPad.validate = .ok outwardContexts := by rfl

/-- Keys are delivered, a message is encrypted with some of them, and noise comes back. -/
def noisyExchange : List Event :=
  [.dispatch (.keys (List.replicate 30 5)),
    .dispatch (.message ((Message.ofPayload 9 [7]).withEncryption true)), .wire [0, 1, 2] 0]

theorem never_breaks_inside_outwardPad :
    ∃ c, outwardPad.toChannel KeyBuffer.byFour = .ok c
      ∧ ∀ m failure, ((c.run noisyExchange).encode m).2 = .error failure →
        failure.kind ≠ .contextFailed := by
  have hstate : ∀ slot ∈ [Slot.encryptionIncoming, .encryptionOutgoing], ∀ s,
      Scheme.parse (outwardPad.association.get slot) = .ok s → s.state = [] := by
    have hincoming : Scheme.parse "null" = .ok (.named "null") := by rfl
    have houtgoing : Scheme.parse "xor" = .ok (.named "xor") := by rfl
    intro slot hslot s hs
    rcases List.mem_pair.1 hslot with rfl | rfl
    · obtain rfl := Except.ok.inj (hincoming.symm.trans hs)
      rfl
    · obtain rfl := Except.ok.inj (houtgoing.symm.trans hs)
      rfl
  obtain ⟨-, c, hchannel, hrun⟩ := never_breaks_inside validate_outwardPad hstate (z := .stored)
    (fun content _ => ⟨_, rfl⟩) (.new (rfl : KeyBuffer.ofQuantum 4 = .ok KeyBuffer.byFour))
  refine ⟨c, hchannel, ?_⟩
  have hstored : c.withCodec .stored = c := by
    cases hchannel
    rfl
  intro m failure hfailure
  exact ((hrun noisyExchange (by decide) (by decide) _ rfl).1 m failure
    (by rw [hstored]; exact hfailure)).1

end TunnelConfig

end OneTimeChannel

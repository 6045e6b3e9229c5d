/-
  What encoding does, said once.

  Encoding drafts a message (`draft_eq_ok_iff` lists all that is checked and computed), asks whether its
  keys are there, encrypts the draft if it is to be encrypted, and authenticates it.  As for decoding,
  there is one lemma for each stage, and none of them depends on the key source.
-/
import OneTimeChannel.Channel.Encode
import OneTimeChannel.Proofs.Cipher.Context

namespace OneTimeChannel.Channel

variable {K : Type} {c : Channel K} {m : Message}

/-! ## Drafting -/

/-- What holds of a message that is drafted, of the copies of the two contexts, and of the payload as
    it is sent before encryption. -/
structure Drafts (c : Channel K) (m : Message) (authentication encryption : Context)
    (payload : Bytes) : Prop where
  id_ne : c.id ≠ 0
  length_le : m.payload.length ≤ maxPayload
  nextMessageId_ne : c.nextMessageId + 1 ≠ 0
  authentication_eq : c.fresh .authenticationOutgoing = .ok authentication
  encryption_eq : c.fresh .encryptionOutgoing = .ok encryption
  pack_eq : c.pack m.payload (c.compresses m encryption) = .ok payload
  finalized_eq : encrypts m encryption = true → encryption.finalized = false
  length_lt : headerSize + payload.length + authentication.resultSize < 2 ^ 32

/-- The draft that comes of it. -/
def drafted (c : Channel K) (m : Message) (authentication encryption : Context) (payload : Bytes) :
    Draft where
  header := c.draftHeader m (c.compresses m encryption)
  payload
  authentication
  encryption := if encrypts m encryption then some (encryption.absorbed payload) else none
  length := UInt32.ofNat (headerSize + payload.length + authentication.resultSize)

theorem absorbPayload_eq_ok_iff {encryption : Context} {payload : Bytes} {r : Option Context} :
    absorbPayload m encryption payload = .ok r ↔
      (encrypts m encryption = true → encryption.finalized = false)
        ∧ r = if encrypts m encryption then some (encryption.absorbed payload) else none := by
  rw [absorbPayload]
  by_cases hencrypts : encrypts m encryption = true
  · rw [if_pos hencrypts, if_pos hencrypts]
    constructor
    · intro h
      split at h
      · next context hadd =>
        have hfin := Context.finalized_of_add_eq_ok hadd
        rw [Context.add_eq hfin] at hadd
        cases hadd
        cases h
        exact ⟨fun _ => hfin, rfl⟩
      · cases h
    · rintro ⟨hfin, rfl⟩
      rw [Context.add_eq (hfin hencrypts)]
  · rw [if_neg hencrypts, if_neg hencrypts]
    constructor
    · rintro ⟨⟩
      exact ⟨fun h => absurd h hencrypts, rfl⟩
    · rintro ⟨-, rfl⟩
      rfl

/-- All that is checked, in the order in which it is checked. -/
theorem draft_eq_ok_iff {d : Draft} :
    c.draft m = .ok d ↔
      ∃ authentication encryption payload, Drafts c m authentication encryption payload
        ∧ d = c.drafted m authentication encryption payload := by
  unfold draft
  simp only [bind, Except.bind, pure, Except.pure, throw, throwThe, MonadExceptOf.throw]
  constructor
  · intro h
    split at h
    · cases h
    next hid =>
    split at h
    · cases h
    next hlength =>
    split at h
    · cases h
    next hnext =>
    split at h
    · cases h
    next authentication hauth =>
    split at h
    · cases h
    next encryption henc =>
    split at h
    · cases h
    next payload hpack =>
    split at h
    · cases h
    next absorbed habsorb =>
    split at h
    · cases h
    next hfits =>
    obtain ⟨hfin, rfl⟩ := absorbPayload_eq_ok_iff.1 habsorb
    cases h
    exact ⟨authentication, encryption, payload,
      ⟨hid, Nat.not_lt.1 hlength, hnext, hauth, henc, hpack, hfin, Nat.not_le.1 hfits⟩, rfl⟩
  · rintro ⟨authentication, encryption, payload, h, rfl⟩
    have habsorb : absorbPayload m encryption payload
        = .ok (if encrypts m encryption then some (encryption.absorbed payload) else none) :=
      absorbPayload_eq_ok_iff.2 ⟨h.finalized_eq, rfl⟩
    simpa [h.id_ne, Nat.not_lt.2 h.length_le, h.nextMessageId_ne, h.authentication_eq,
      h.encryption_eq, h.pack_eq, habsorb, drafted] using h.length_lt

/-! ## The stages behind it -/

section Stages

variable [KeySource K] {d d' : Draft} {keys keys' : K} {encoded : Message}

/-- The draft after encryption. -/
def Draft.encrypted (d : Draft) (id : UInt32) (payload : Bytes) : Draft :=
  { d with
    header := { d.header.setFlag .encrypted true with encryptionKeyId := id }
    payload }

/-- A draft without a context for encryption stays as it is; otherwise a key is taken, and it is one
    that the context accepts. -/
theorem encrypt_eq_ok_iff :
    d.encrypt keys = (.ok d', keys') ↔
      d.encryption = none ∧ d' = d ∧ keys' = keys
        ∨ ∃ context id key, d.encryption = some context
          ∧ KeySource.fetchOutgoing keys context.finalKeySize = (.ok (id, key), keys')
          ∧ context.finalized = false ∧ context.acceptsFinalKey key = true
          ∧ d' = d.encrypted id (context.algorithm.result key) := by
  unfold Draft.encrypt
  constructor
  · intro h
    split at h
    · next hnone =>
      cases h
      exact Or.inl ⟨hnone, rfl, rfl⟩
    next context hsome =>
    split at h
    · cases h
    next id key keys₁ hfetch =>
    split at h
    · cases h
    next finished payload hfinal =>
    obtain ⟨hfin, hkey⟩ := Context.accepts_of_finalize_eq_ok hfinal
    rw [Context.finalize_eq hfin hkey] at hfinal
    cases hfinal
    cases h
    exact Or.inr ⟨context, id, key, hsome, hfetch, hfin, hkey, rfl⟩
  · rintro (⟨hnone, rfl, rfl⟩ | ⟨context, id, key, hsome, hfetch, hfin, hkey, rfl⟩)
    · simp [hnone]
    · simp [hsome, hfetch, Context.finalize_eq hfin hkey, Draft.encrypted]

/-- Encryption fails for want of a key, or in its context. -/
theorem encrypt_eq_error {failure : Failure} (h : d.encrypt keys = (.error failure, keys')) :
    (∃ cause, KeySource.fetchOutgoing keys d.encryptionKeyLength = (.error cause, keys'))
      ∨ failure.kind = .contextFailed := by
  unfold Draft.encrypt at h
  split at h
  · cases h
  next context hsome =>
  split at h
  · next cause keys₁ hfetch =>
    cases h
    rw [Draft.encryptionKeyLength, hsome]
    exact Or.inl ⟨cause, hfetch⟩
  split at h
  · cases h
    exact Or.inr rfl
  · cases h

/-- The header of the encoded message, given the id of its authentication key. -/
def Draft.sealedHeader (d : Draft) (id : UInt32) : Header :=
  { d.header with authenticationKeyId := id, length := d.length }

theorem authenticate_eq_ok_iff :
    d.authenticate keys = (.ok encoded, keys') ↔
      ∃ id key tag, KeySource.fetchOutgoing keys d.authenticationKeyLength = (.ok (id, key), keys')
        ∧ tagOf d.authentication (d.sealedHeader id) d.payload key = .ok tag
        ∧ tag.length = d.authentication.resultSize
        ∧ encoded = { header := d.sealedHeader id, payload := d.payload, tag } := by
  unfold Draft.authenticate
  constructor
  · intro h
    split at h
    · cases h
    next id key keys₁ hfetch =>
    dsimp only at h
    split at h
    · cases h
    next tag htag =>
    split at h
    · next hlength =>
      cases h
      exact ⟨id, key, tag, hfetch, htag, hlength, rfl⟩
    · cases h
  · rintro ⟨id, key, tag, hfetch, htag, hlength, rfl⟩
    rw [Draft.sealedHeader] at htag
    simp [hfetch, htag, hlength, Draft.sealedHeader]

/-- Authentication fails for want of a key, or in its context. -/
theorem authenticate_eq_error {failure : Failure} (h : d.authenticate keys = (.error failure, keys')) :
    (∃ cause, KeySource.fetchOutgoing keys d.authenticationKeyLength = (.error cause, keys'))
      ∨ failure.kind = .contextFailed := by
  unfold Draft.authenticate at h
  split at h
  · next cause keys₁ hfetch =>
    cases h
    exact Or.inl ⟨cause, hfetch⟩
  dsimp only at h
  split at h
  · cases h
    exact Or.inr rfl
  · split at h
    · cases h
    · cases h
      exact Or.inr rfl

theorem complete_eq_ok_iff :
    d.complete keys = (.ok encoded, keys') ↔
      ∃ d' between, d.encrypt keys = (.ok d', between)
        ∧ d'.authenticate between = (.ok encoded, keys') := by
  unfold Draft.complete
  constructor
  · intro h
    split at h
    · cases h
    · next d' between hencrypt => exact ⟨d', between, hencrypt, h⟩
  · rintro ⟨d', between, hencrypt, hauthenticate⟩
    simp [hencrypt, hauthenticate]

/-- A draft that is not completed fails in one of its two stages. -/
theorem complete_eq_error {failure : Failure} (h : d.complete keys = (.error failure, keys')) :
    d.encrypt keys = (.error failure, keys')
      ∨ ∃ d' between, d.encrypt keys = (.ok d', between)
        ∧ d'.authenticate between = (.error failure, keys') := by
  unfold Draft.complete at h
  split at h
  · next hencrypt =>
    cases h
    exact Or.inl hencrypt
  · next d' between hencrypt => exact Or.inr ⟨d', between, hencrypt, h⟩

/-! ## What fetching keeps, completing keeps -/

section Invariant

variable {P : K → Prop} (hfetch : ∀ k length, P k → P (KeySource.fetchOutgoing k length).2)
include hfetch

theorem encrypt_keeps (h : P keys) : P (d.encrypt keys).2 := by
  rw [Draft.encrypt]
  split
  · exact h
  · next context hcontext =>
    have hstep := hfetch keys context.finalKeySize h
    generalize KeySource.fetchOutgoing keys context.finalKeySize = r at hstep ⊢
    rcases r with ⟨_ | ⟨id, key⟩, keys'⟩
    · exact hstep
    · dsimp only
      cases context.finalize key <;> exact hstep

theorem authenticate_keeps (h : P keys) : P (d.authenticate keys).2 := by
  have hstep := hfetch keys d.authenticationKeyLength h
  rw [Draft.authenticate]
  generalize KeySource.fetchOutgoing keys d.authenticationKeyLength = r at hstep ⊢
  rcases r with ⟨_ | ⟨id, key⟩, keys'⟩
  · exact hstep
  · dsimp only
    split
    · exact hstep
    · split <;> exact hstep

/-- A property of key sources that fetching keys to send with does not touch is not touched by
    completing a draft either. -/
theorem complete_keeps (h : P keys) : P (d.complete keys).2 := by
  have hencrypt : P (d.encrypt keys).2 := encrypt_keeps hfetch h
  rw [Draft.complete]
  generalize d.encrypt keys = r at hencrypt ⊢
  rcases r with ⟨_ | d', between⟩
  · exact hencrypt
  · exact authenticate_keeps hfetch hencrypt

end Invariant

/-! ## Encoding -/

theorem encode_of_refused {failure : Failure} (h : c.draft m = .error failure) :
    c.encode m = (c, .error failure) := by
  simp [encode, h]

theorem encode_of_keysMissing (h : c.draft m = .ok d)
    (hkeys : KeySource.outgoingAvailable c.keys d.keyLengths = false) :
    c.encode m = (c, .error (.outgoingKeysMissing c.id c.nextMessageId)) := by
  simp [encode, h, hkeys]

theorem encode_of_complete_ok (h : c.draft m = .ok d)
    (hkeys : KeySource.outgoingAvailable c.keys d.keyLengths = true)
    (hcomplete : d.complete c.keys = (.ok encoded, keys')) :
    c.encode m
      = ({ c with keys := keys', nextMessageId := c.nextMessageId + 1 }, .ok encoded) := by
  simp [encode, h, hkeys, hcomplete]

theorem encode_of_complete_error {failure : Failure} (h : c.draft m = .ok d)
    (hkeys : KeySource.outgoingAvailable c.keys d.keyLengths = true)
    (hcomplete : d.complete c.keys = (.error failure, keys')) :
    c.encode m = ({ c with keys := keys' }, .error failure) := by
  simp [encode, h, hkeys, hcomplete]

/-- The ways in which encoding can end: refused without a change, or with what comes of the draft. -/
theorem encode_cases (c : Channel K) (m : Message) :
    (∃ failure, c.encode m = (c, .error failure))
      ∨ ∃ d, c.draft m = .ok d ∧ KeySource.outgoingAvailable c.keys d.keyLengths = true
        ∧ ((∃ failure keys', d.complete c.keys = (.error failure, keys')
            ∧ c.encode m = ({ c with keys := keys' }, .error failure))
          ∨ ∃ encoded keys', d.complete c.keys = (.ok encoded, keys')
            ∧ c.encode m
              = ({ c with keys := keys', nextMessageId := c.nextMessageId + 1 }, .ok encoded)) := by
  cases hdraft : c.draft m with
  | error failure => exact Or.inl ⟨failure, encode_of_refused hdraft⟩
  | ok d =>
    cases hkeys : KeySource.outgoingAvailable c.keys d.keyLengths with
    | false => exact Or.inl ⟨_, encode_of_keysMissing hdraft hkeys⟩
    | true =>
      refine Or.inr ⟨d, rfl, hkeys, ?_⟩
      rcases hcomplete : d.complete c.keys with ⟨failure | encoded, keys'⟩
      · exact Or.inl ⟨failure, keys', rfl, encode_of_complete_error hdraft hkeys hcomplete⟩
      · exact Or.inr ⟨encoded, keys', rfl, encode_of_complete_ok hdraft hkeys hcomplete⟩

/-- What fetching keeps, encoding keeps. -/
theorem encode_keeps {P : K → Prop}
    (hfetch : ∀ k length, P k → P (KeySource.fetchOutgoing k length).2) (h : P c.keys) :
    P (c.encode m).1.keys := by
  rcases encode_cases c m with ⟨failure, hencode⟩ | ⟨d, -, -, hcomplete⟩
  · rw [hencode]
    exact h
  · have hkeep : P (d.complete c.keys).2 := complete_keeps hfetch h
    rcases hcomplete with ⟨failure, keys', hcomplete, hencode⟩ | ⟨encoded, keys', hcomplete, hencode⟩
    · rw [hcomplete] at hkeep
      rw [hencode]
      exact hkeep
    · rw [hcomplete] at hkeep
      rw [hencode]
      exact hkeep

end Stages

end OneTimeChannel.Channel

/-
  What decoding does, said once.

  Decoding examines a message without any key (`examine_eq_ok_iff` lists all that is checked), asks
  whether the keys it names are there, and opens it: the tag is verified, the payload decrypted and
  expanded.  The lemmas below take these stages apart, one for each, so that no later proof has to
  unfold them.  They hold for every key source.
-/
import OneTimeChannel.Channel.Decode
import OneTimeChannel.Proofs.Cipher.Context

namespace OneTimeChannel.Channel

variable {K : Type} {c : Channel K} {m : Message}

/-! ## Examining -/

/-- What holds of a message that passes the examination, and of the copies of the two contexts. -/
structure Examines (c : Channel K) (m : Message) (authentication encryption : Context) : Prop where
  admits : c.admits m = true
  authentication_eq : c.fresh .authenticationIncoming = .ok authentication
  encryption_eq : c.fresh .encryptionIncoming = .ok encryption
  decryptable : m.header.has .encrypted = true →
    encryption.isNull = false ∧ encryption.finalized = false
  tag_length : m.tag.length = authentication.resultSize

/-- The contexts that an examination ends with. -/
def examined (m : Message) (authentication encryption : Context) : Examined where
  authentication
  encryption := if m.header.has .encrypted then some (encryption.absorbed m.payload) else none

@[simp] theorem authentication_examined (m : Message) (authentication encryption : Context) :
    (examined m authentication encryption).authentication = authentication := rfl

theorem examine_eq_ok_iff {e : Examined} :
    c.examine m = .ok e ↔
      ∃ authentication encryption, Examines c m authentication encryption
        ∧ e = examined m authentication encryption := by
  unfold examine
  simp only [bind, Except.bind, pure, Except.pure, throw, throwThe, MonadExceptOf.throw]
  constructor
  · intro h
    split at h
    · cases h
    next hadmits =>
    split at h
    · cases h
    next authentication hauth =>
    split at h
    · cases h
    next encryption henc =>
    split at h
    · cases h
    next hnull =>
    split at h
    · cases h
    next htag =>
    have hadmits : c.admits m = true := by simpa using hadmits
    have htag : m.tag.length = authentication.resultSize := by simpa using htag
    refine ⟨authentication, encryption, ?_⟩
    split at h
    · next hflag =>
      have hnull : encryption.isNull = false := by simpa [hflag] using hnull
      split at h
      · next context hadd =>
        have hfin := Context.finalized_of_add_eq_ok hadd
        rw [Context.add_eq hfin] at hadd
        cases hadd
        cases h
        refine ⟨⟨hadmits, hauth, henc, fun _ => ⟨hnull, hfin⟩, htag⟩, ?_⟩
        rw [examined, if_pos hflag]
      · cases h
    · next hflag =>
      cases h
      refine ⟨⟨hadmits, hauth, henc, fun hf => absurd hf hflag, htag⟩, ?_⟩
      rw [examined, if_neg hflag]
  · rintro ⟨authentication, encryption, h, rfl⟩
    rw [h.admits, h.authentication_eq, h.encryption_eq]
    by_cases hflag : m.header.has .encrypted = true
    · obtain ⟨hnull, hfin⟩ := h.decryptable hflag
      simp [hflag, hnull, h.tag_length, Context.add_eq hfin, examined]
    · simp [hflag, h.tag_length, examined]

/-- An examination fails because of the header, in a context, or because of the length of the tag. -/
theorem examine_eq_error {failure : Failure} (h : c.examine m = .error failure) :
    failure = .badHeader ∨ failure.kind = .contextFailed
      ∨ failure = c.forged m.header ∧ ∃ authentication,
        c.fresh .authenticationIncoming = .ok authentication
          ∧ m.tag.length ≠ authentication.resultSize := by
  have hfresh : ∀ slot cause, c.fresh slot = .error cause → cause.kind = .contextFailed := by
    intro slot cause hcause
    rw [fresh] at hcause
    split at hcause
    · cases hcause
    · cases hcause
      rfl
  unfold examine at h
  simp only [bind, Except.bind, pure, Except.pure, throw, throwThe, MonadExceptOf.throw] at h
  split at h
  · cases h
    exact Or.inl rfl
  split at h
  · next cause hcause =>
    cases h
    exact Or.inr (Or.inl (hfresh _ _ hcause))
  next authentication hauth =>
  split at h
  · next cause hcause =>
    cases h
    exact Or.inr (Or.inl (hfresh _ _ hcause))
  split at h
  · cases h
    exact Or.inr (Or.inl rfl)
  split at h
  · next htag =>
    cases h
    exact Or.inr (Or.inr ⟨rfl, authentication, hauth, by simpa using htag⟩)
  split at h
  · split at h
    · cases h
    · cases h
      exact Or.inr (Or.inl rfl)
  · cases h

/-- An examination that ends in the suspicion of an attack has found the tag to have the wrong
    length. -/
theorem tag_length_ne_of_examine {failure : Failure} (h : c.examine m = .error failure)
    (hkind : failure.kind = .notAuthentic) :
    ∃ authentication, c.fresh .authenticationIncoming = .ok authentication
      ∧ m.tag.length ≠ authentication.resultSize := by
  rcases examine_eq_error h with rfl | hcontext | ⟨-, htag⟩
  · cases hkind
  · rw [hcontext] at hkind
    cases hkind
  · exact htag

/-! ## The stages behind it -/

theorem expand_eq_error {header : Header} {payload : Bytes} {failure : Failure}
    (h : c.expand header payload = .error failure) : failure = .notDecompressed := by
  unfold expand at h
  split at h
  · split at h
    · split at h <;> cases h
      rfl
    · cases h
      rfl
  · cases h

variable [KeySource K]

/-- The tag is right exactly if it is the one that the key from the source gives. -/
theorem verify_eq_ok_iff {e : Examined} {keys keys' : K} :
    c.verify m e keys = (.ok (), keys') ↔
      ∃ key, KeySource.fetchIncoming keys m.header.authenticationKeyId e.authenticationKeyLength
          = (.ok key, keys')
        ∧ tagOf e.authentication m.header m.payload key = .ok m.tag := by
  unfold verify
  constructor
  · intro h
    split at h
    · cases h
    next key keys₁ hfetch =>
    split at h
    · cases h
    next expected htag =>
    split at h
    · next hsame =>
      cases h
      exact ⟨key, hfetch, by rw [htag, sameBytes_iff.1 hsame]⟩
    · cases h
  · rintro ⟨key, hfetch, htag⟩
    simp [hfetch, htag, sameBytes_iff.2 rfl]

/-- A tag that is not the one from the key is refused, and the key is gone. -/
theorem verify_of_tag_ne {e : Examined} {keys keys' : K} {key : Key} {expected : Bytes}
    (hfetch : KeySource.fetchIncoming keys m.header.authenticationKeyId e.authenticationKeyLength
      = (.ok key, keys'))
    (htag : tagOf e.authentication m.header m.payload key = .ok expected) (hne : expected ≠ m.tag) :
    c.verify m e keys = (.error (c.forged m.header), keys') := by
  have hsame : sameBytes expected m.tag = false := by
    rw [Bool.eq_false_iff]
    exact fun h => hne (sameBytes_iff.1 h)
  simp [verify, hfetch, htag, hsame]

/-- A verification fails for want of a key, or has taken the key and then fails in the context or finds
    that the tag is another. -/
theorem verify_eq_error {e : Examined} {keys keys' : K} {failure : Failure}
    (h : c.verify m e keys = (.error failure, keys')) :
    (∃ cause, KeySource.fetchIncoming keys m.header.authenticationKeyId e.authenticationKeyLength
        = (.error cause, keys') ∧ failure = .key cause)
      ∨ ∃ key, KeySource.fetchIncoming keys m.header.authenticationKeyId e.authenticationKeyLength
          = (.ok key, keys')
        ∧ ((∃ cause, tagOf e.authentication m.header m.payload key = .error cause
            ∧ failure = .context cause)
          ∨ ∃ expected, tagOf e.authentication m.header m.payload key = .ok expected
            ∧ expected ≠ m.tag ∧ failure = c.forged m.header) := by
  unfold verify at h
  split at h
  · next cause keys₁ hfetch =>
    cases h
    exact Or.inl ⟨cause, hfetch, rfl⟩
  next key keys₁ hfetch =>
  split at h
  · next cause htag =>
    cases h
    exact Or.inr ⟨key, hfetch, Or.inl ⟨cause, htag, rfl⟩⟩
  next expected htag =>
  split at h
  · cases h
  · next hsame =>
    cases h
    refine Or.inr ⟨key, hfetch, Or.inr ⟨expected, htag, ?_, rfl⟩⟩
    exact fun heq => hsame (sameBytes_iff.2 heq)

/-- A verification that ends in the suspicion of an attack has taken the key. -/
theorem fetchIncoming_of_verify {e : Examined} {keys keys' : K} {failure : Failure}
    (h : c.verify m e keys = (.error failure, keys')) (hkind : failure.kind = .notAuthentic) :
    ∃ key, KeySource.fetchIncoming keys m.header.authenticationKeyId e.authenticationKeyLength
      = (.ok key, keys') := by
  rcases verify_eq_error h with ⟨cause, -, rfl⟩ | ⟨key, hfetch, -⟩
  · cases hkind
  · exact ⟨key, hfetch⟩

theorem opened_of_verify_error {e : Examined} {keys keys' : K} {failure : Failure}
    (h : c.verify m e keys = (.error failure, keys')) :
    c.opened m e keys = (.error failure, keys') := by
  simp [opened, h]

/-- A payload that is not encrypted stays as it is; otherwise a key is taken, and it is one that the
    context accepts. -/
theorem decrypt_eq_ok_iff {e : Examined} {keys keys' : K} {payload : Bytes} :
    decrypt m e keys = (.ok payload, keys') ↔
      e.encryption = none ∧ payload = m.payload ∧ keys' = keys
        ∨ ∃ context key, e.encryption = some context
          ∧ KeySource.fetchIncoming keys m.header.encryptionKeyId e.encryptionKeyLength
            = (.ok key, keys')
          ∧ context.finalized = false ∧ context.acceptsFinalKey key = true
          ∧ payload = context.algorithm.result key := by
  unfold decrypt
  constructor
  · intro h
    split at h
    · next hnone =>
      cases h
      exact Or.inl ⟨hnone, rfl, rfl⟩
    next context hsome =>
    split at h
    · cases h
    next key keys₁ hfetch =>
    split at h
    · cases h
    next finished payload hfinal =>
    obtain ⟨hfin, hkey⟩ := Context.accepts_of_finalize_eq_ok hfinal
    rw [Context.finalize_eq hfin hkey] at hfinal
    cases hfinal
    cases h
    exact Or.inr ⟨context, key, hsome, hfetch, hfin, hkey, rfl⟩
  · rintro (⟨hnone, rfl, rfl⟩ | ⟨context, key, hsome, hfetch, hfin, hkey, rfl⟩)
    · simp [hnone]
    · simp [hsome, hfetch, Context.finalize_eq hfin hkey]

/-- A decryption fails for want of a key, or has taken the key and then fails in the context. -/
theorem decrypt_eq_error {e : Examined} {keys keys' : K} {failure : Failure}
    (h : decrypt m e keys = (.error failure, keys')) :
    ∃ key, KeySource.fetchIncoming keys m.header.encryptionKeyId e.encryptionKeyLength = (key, keys')
      ∧ ((∃ cause, key = .error cause ∧ failure = .key cause)
        ∨ ∃ cause, failure = .context cause) := by
  unfold decrypt at h
  split at h
  · cases h
  split at h
  · next cause keys₁ hfetch =>
    cases h
    exact ⟨_, hfetch, Or.inl ⟨cause, rfl, rfl⟩⟩
  next key keys₁ hfetch =>
  split at h
  · next cause hfinal =>
    cases h
    exact ⟨_, hfetch, Or.inr ⟨cause, rfl⟩⟩
  · cases h

theorem opened_eq_ok_iff {e : Examined} {keys keys' : K} {o : Message} :
    c.opened m e keys = (.ok o, keys') ↔
      ∃ verified payload content, c.verify m e keys = (.ok (), verified)
        ∧ decrypt m e verified = (.ok payload, keys')
        ∧ c.expand m.header payload = .ok content
        ∧ o = { header := m.header, payload := content } := by
  unfold opened
  constructor
  · intro h
    split at h
    · cases h
    next verified hverify =>
    split at h
    · cases h
    next payload keys₂ hdecrypt =>
    split at h
    · cases h
    next content hexpand =>
    cases h
    exact ⟨verified, payload, content, hverify, hdecrypt, hexpand, rfl⟩
  · rintro ⟨verified, payload, content, hverify, hdecrypt, hexpand, rfl⟩
    simp [hverify, hdecrypt, hexpand]

/-- A message that is not opened fails in one of the three stages. -/
theorem opened_eq_error {e : Examined} {keys keys' : K} {failure : Failure}
    (h : c.opened m e keys = (.error failure, keys')) :
    c.verify m e keys = (.error failure, keys')
      ∨ ∃ verified, c.verify m e keys = (.ok (), verified)
        ∧ (decrypt m e verified = (.error failure, keys')
          ∨ ∃ payload, decrypt m e verified = (.ok payload, keys') ∧ failure = .notDecompressed) := by
  unfold opened at h
  split at h
  · next hverify =>
    cases h
    exact Or.inl hverify
  next verified hverify =>
  split at h
  · next hdecrypt =>
    cases h
    exact Or.inr ⟨verified, hverify, Or.inl hdecrypt⟩
  next payload keys₂ hdecrypt =>
  split at h
  · next hexpand =>
    cases h
    exact Or.inr ⟨verified, hverify, Or.inr ⟨payload, hdecrypt, expand_eq_error hexpand⟩⟩
  · cases h

/-- Only the verification ends in the suspicion of an attack. -/
theorem verify_of_opened {e : Examined} {keys keys' : K} {failure : Failure}
    (h : c.opened m e keys = (.error failure, keys')) (hkind : failure.kind = .notAuthentic) :
    c.verify m e keys = (.error failure, keys') := by
  rcases opened_eq_error h with hverify | ⟨verified, -, hdecrypt | ⟨payload, -, rfl⟩⟩
  · exact hverify
  · obtain ⟨key, -, ⟨cause, -, rfl⟩ | ⟨cause, rfl⟩⟩ := decrypt_eq_error hdecrypt
    · cases hkind
    · cases hkind
  · cases hkind

/-! ## Decoding -/

theorem decode_of_refused {failure : Failure} (h : c.examine m = .error failure) :
    c.decode m = (c, .error failure) := by
  simp [decode, h]

theorem decode_of_keysMissing {e : Examined} (h : c.examine m = .ok e)
    (hkeys : KeySource.incomingAvailable c.keys (e.requests m.header) = false) :
    c.decode m = (c, .error (.incomingKeysMissing c.id m.header.messageId)) := by
  simp [decode, h, hkeys]

theorem decode_of_available {e : Examined} (h : c.examine m = .ok e)
    (hkeys : KeySource.incomingAvailable c.keys (e.requests m.header) = true) :
    c.decode m = ({ c with keys := (c.opened m e c.keys).2 }, (c.opened m e c.keys).1) := by
  simp [decode, h, hkeys]

/-- Every stage of a message that is decoded. -/
theorem stages_of_decode_eq_ok {o : Message} (h : (c.decode m).2 = .ok o) :
    ∃ e, c.examine m = .ok e ∧ KeySource.incomingAvailable c.keys (e.requests m.header) = true
      ∧ c.opened m e c.keys = (.ok o, (c.decode m).1.keys) := by
  cases hexamine : c.examine m with
  | error failure =>
    rw [decode_of_refused hexamine] at h
    cases h
  | ok e =>
    cases hkeys : KeySource.incomingAvailable c.keys (e.requests m.header) with
    | false =>
      rw [decode_of_keysMissing hexamine hkeys] at h
      cases h
    | true =>
      rw [decode_of_available hexamine hkeys] at h ⊢
      exact ⟨e, rfl, hkeys, Prod.ext h rfl⟩

/-- Nothing but the key source changes. -/
theorem decode_fst (m : Message) : (c.decode m).1 = { c with keys := (c.decode m).1.keys } := by
  unfold decode
  split
  · rfl
  · split <;> rfl

end OneTimeChannel.Channel

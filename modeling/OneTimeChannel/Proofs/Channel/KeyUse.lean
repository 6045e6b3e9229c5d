/-
  What decoding a message costs.

  The header of a message says which incoming quanta it was made with, and anybody can write a header.
  So it has to be exact which quanta are gone after a decoding, whatever the message says and whatever
  the channel holds: none while the message can be turned away without a key or a quantum that it names
  is missing, those for authentication once the tag is verified, and those for encryption only after
  that.  `Ends` lists the endings with their costs, and `decode_ends` shows that there are no others.
  In particular a key that was found to be there is there when it is taken, since the quanta of the two
  keys are apart (`KeyBuffer.exists_fetchIncoming_both`).

  Nothing is assumed of the channel or of its buffer.
-/
import OneTimeChannel.Proofs.Channel.Decode
import OneTimeChannel.Proofs.Channel.TamperDetection
import OneTimeChannel.Proofs.Cipher.Recreation
import OneTimeChannel.Proofs.Keys.Buffer

namespace OneTimeChannel.Channel

open KeyBuffer (Spends requestedIds)
open KeyStock (idsFrom quantaFor)

/-! ## Without a key -/

section Examination

variable {K : Type} {c : Channel K} {m : Message}

/-- The context that verifies incoming messages. -/
def verifier (c : Channel K) : Context := c.association.authenticationIncoming.recreated

/-- The context that decrypts incoming messages. -/
def decrypter (c : Channel K) : Context := c.association.encryptionIncoming.recreated

/-- What speaks against a message before any key is asked for. -/
inductive TurnedAway (c : Channel K) (m : Message) : Prop where
  | badHeader (h : c.admits m = false)
  | notDecryptable (hflag : m.header.has .encrypted = true) (h : c.decrypter.isNull = true)
  | tagLength (h : m.tag.length ≠ c.verifier.resultSize)
  | finalized (hflag : m.header.has .encrypted = true) (h : c.decrypter.finalized = true)

/-- A message that nothing speaks against passes the examination. -/
theorem examine_of_not_turnedAway (h : ¬ c.TurnedAway m) :
    c.examine m = .ok (examined m c.verifier c.decrypter) := by
  refine examine_eq_ok_iff.2 ⟨c.verifier, c.decrypter, ⟨?_, c.fresh_eq _, c.fresh_eq _, ?_, ?_⟩, rfl⟩
  · by_contra hadmits
    exact h (.badHeader (Bool.eq_false_iff.2 hadmits))
  · intro hflag
    refine ⟨Bool.eq_false_iff.2 fun hnull => h (.notDecryptable hflag hnull), ?_⟩
    exact Bool.eq_false_iff.2 fun hfinalized => h (.finalized hflag hfinalized)
  · by_contra htag
    exact h (.tagLength htag)

/-- No other message does. -/
theorem not_turnedAway_of_examine {e : Examined} (he : c.examine m = .ok e) : ¬ c.TurnedAway m := by
  obtain ⟨authentication, encryption, hchecks, -⟩ := examine_eq_ok_iff.1 he
  obtain rfl : c.verifier = authentication :=
    Except.ok.inj ((c.fresh_eq .authenticationIncoming).symm.trans hchecks.authentication_eq)
  obtain rfl : c.decrypter = encryption :=
    Except.ok.inj ((c.fresh_eq .encryptionIncoming).symm.trans hchecks.encryption_eq)
  intro h
  cases h with
  | badHeader h =>
    rw [hchecks.admits] at h
    cases h
  | notDecryptable hflag h =>
    rw [(hchecks.decryptable hflag).1] at h
    cases h
  | tagLength h => exact h hchecks.tag_length
  | finalized hflag h =>
    rw [(hchecks.decryptable hflag).2] at h
    cases h

/-- A message that is turned away does not lack keys, but something else. -/
theorem decode_of_turnedAway [KeySource K] (h : c.TurnedAway m) :
    ∃ failure, c.decode m = (c, .error failure) ∧ failure.kind ≠ .keysMissing
      ∧ failure ≠ .notDecompressed := by
  cases hexamine : c.examine m with
  | ok e => exact absurd h (not_turnedAway_of_examine hexamine)
  | error failure =>
    refine ⟨failure, decode_of_refused hexamine, ?_, ?_⟩
    · rcases examine_eq_error hexamine with rfl | hkind | ⟨rfl, -⟩
      · decide
      · rw [hkind]
        decide
      · rintro ⟨⟩
    · rcases examine_eq_error hexamine with rfl | hkind | ⟨rfl, -⟩
      · decide
      · rintro rfl
        cases hkind
      · rintro ⟨⟩

end Examination

/-! ## With the keys that the message names -/

variable {c : Channel KeyBuffer} {m : Message}

/-- The ids of the quanta of the authentication key that the message names. -/
def authenticationQuanta (c : Channel KeyBuffer) (m : Message) : List UInt32 :=
  idsFrom m.header.authenticationKeyId (quantaFor c.keys.quantum c.verifier.finalKeySize)

/-- The ids of the quanta of the encryption key that the message names, if it says that it is
    encrypted. -/
def encryptionQuanta (c : Channel KeyBuffer) (m : Message) : List UInt32 :=
  if m.header.has .encrypted then
    idsFrom m.header.encryptionKeyId
      (quantaFor c.keys.quantum (c.decrypter.absorbed m.payload).finalKeySize)
  else []

/-- All quanta that the message names are held, and it names none twice. -/
def HoldsKeysFor (c : Channel KeyBuffer) (m : Message) : Prop :=
  (c.authenticationQuanta m ++ c.encryptionQuanta m).Nodup
    ∧ ∀ id ∈ c.authenticationQuanta m ++ c.encryptionQuanta m, id ∈ c.keys.incoming.held

/-- The authentication key that the message names gives another tag. -/
def TagDiffers (c : Channel KeyBuffer) (m : Message) : Prop :=
  ∃ key verified expected, KeySource.fetchIncoming c.keys m.header.authenticationKeyId
      c.verifier.finalKeySize = (.ok key, verified)
    ∧ tagOf c.verifier m.header m.payload key = .ok expected ∧ expected ≠ m.tag

theorem encryptionQuanta_eq (c : Channel KeyBuffer) (m : Message) :
    c.encryptionQuanta m = idsFrom m.header.encryptionKeyId
      (quantaFor c.keys.quantum (examined m c.verifier c.decrypter).encryptionKeyLength) := by
  rw [encryptionQuanta, examined, Examined.encryptionKeyLength]
  by_cases hflag : m.header.has .encrypted = true
  · simp [hflag]
  · simp [hflag, KeyStock.quantaFor_zero c.keys.quantum_pos]

theorem holdsKeysFor_iff : c.HoldsKeysFor m ↔
    KeySource.incomingAvailable c.keys ((examined m c.verifier c.decrypter).requests m.header)
      = true := by
  have hids : requestedIds c.keys.quantum
        ((examined m c.verifier c.decrypter).requests m.header)
      = c.authenticationQuanta m ++ c.encryptionQuanta m := by
    rw [encryptionQuanta_eq]
    simp only [requestedIds, Examined.requests, List.flatMap_cons, List.flatMap_nil, List.append_nil]
    rfl
  rw [HoldsKeysFor, ← hids]
  exact KeyBuffer.incomingAvailable_iff.symm

theorem tagDiffers_iff {key : Key} {verified : KeyBuffer}
    (hfetch : KeySource.fetchIncoming c.keys m.header.authenticationKeyId c.verifier.finalKeySize
      = (.ok key, verified)) :
    c.TagDiffers m ↔ ∃ expected, tagOf c.verifier m.header m.payload key = .ok expected
      ∧ expected ≠ m.tag := by
  constructor
  · rintro ⟨key', verified', expected, hfetch', htag, hne⟩
    rw [hfetch] at hfetch'
    cases hfetch'
    exact ⟨expected, htag, hne⟩
  · rintro ⟨expected, htag, hne⟩
    exact ⟨key, verified, expected, hfetch, htag, hne⟩

/-- Decryption costs the key that the message names, which is the empty one if it is not encrypted. -/
theorem decrypt_snd (m : Message) (e : Examined) (keys : KeyBuffer) :
    (decrypt m e keys).2
      = (KeySource.fetchIncoming keys m.header.encryptionKeyId e.encryptionKeyLength).2 := by
  rw [decrypt, Examined.encryptionKeyLength]
  cases e.encryption with
  | none => rfl
  | some context =>
    dsimp only
    rcases KeySource.fetchIncoming keys m.header.encryptionKeyId context.finalKeySize
      with ⟨cause | key, keys'⟩
    · rfl
    · dsimp only
      cases context.finalize key <;> rfl

/-- How decoding a message can end that is not turned away: with which quanta used up, and with which
    result. -/
inductive Ends (c : Channel KeyBuffer) (m : Message) : List UInt32 → Except Failure Message → Prop where
  | keysMissing (h : ¬ c.HoldsKeysFor m) :
    Ends c m [] (.error (.incomingKeysMissing c.id m.header.messageId))
  | notVerified (h : c.HoldsKeysFor m) (htag : ¬ c.TagDiffers m) (cause : Context.Error) :
    Ends c m (c.authenticationQuanta m) (.error (.context cause))
  | forged (h : c.HoldsKeysFor m) (htag : c.TagDiffers m) :
    Ends c m (c.authenticationQuanta m) (.error (c.forged m.header))
  | notDecrypted (h : c.HoldsKeysFor m) (htag : ¬ c.TagDiffers m) (cause : Context.Error) :
    Ends c m (c.authenticationQuanta m ++ c.encryptionQuanta m) (.error (.context cause))
  | notDecompressed (h : c.HoldsKeysFor m) (htag : ¬ c.TagDiffers m) :
    Ends c m (c.authenticationQuanta m ++ c.encryptionQuanta m) (.error .notDecompressed)
  | decoded (h : c.HoldsKeysFor m) (htag : ¬ c.TagDiffers m) (o : Message) :
    Ends c m (c.authenticationQuanta m ++ c.encryptionQuanta m) (.ok o)

/-- A tag that is verified is the one that the key gives. -/
theorem not_tagDiffers_of_verify {verified : KeyBuffer}
    (h : c.verify m (examined m c.verifier c.decrypter) c.keys = (.ok (), verified)) :
    ¬ c.TagDiffers m := by
  obtain ⟨key, hfetch, htag⟩ := verify_eq_ok_iff.1 h
  rw [tagDiffers_iff hfetch]
  rintro ⟨expected, hexpected, hne⟩
  cases htag.symm.trans hexpected
  exact hne rfl

namespace Ends

variable {spent : List UInt32} {r : Except Failure Message}

/-- With its keys there, a message is taken for a forgery exactly if they give another tag. -/
theorem notAuthentic_iff (h : c.Ends m spent r) (hholds : c.HoldsKeysFor m) :
    c.TagDiffers m ↔ ∃ failure, r = .error failure ∧ failure.kind = .notAuthentic := by
  cases h with
  | keysMissing h => exact absurd hholds h
  | notVerified _ htag cause => simp [htag, Failure.kind]
  | forged _ htag => simp [htag, Channel.forged, Failure.kind]
  | notDecrypted _ htag cause => simp [htag, Failure.kind]
  | notDecompressed _ htag => simp [htag, Failure.kind]
  | decoded _ htag o => simp [htag]

theorem spent_of_tagDiffers (h : c.Ends m spent r) (hholds : c.HoldsKeysFor m)
    (htag : c.TagDiffers m) : spent = c.authenticationQuanta m := by
  cases h with
  | keysMissing h => exact absurd hholds h
  | notVerified | forged => rfl
  | notDecrypted _ h | notDecompressed _ h | decoded _ h => exact absurd htag h

theorem spent_of_contextFailed (h : c.Ends m spent r) {failure : Failure} (hr : r = .error failure)
    (hkind : failure.kind = .contextFailed) : spent = c.authenticationQuanta m
      ∨ spent = c.authenticationQuanta m ++ c.encryptionQuanta m := by
  cases h with
  | keysMissing =>
    cases hr
    cases hkind
  | notVerified | forged => exact Or.inl rfl
  | notDecrypted | notDecompressed | decoded => exact Or.inr rfl

theorem spent_of_decrypted (h : c.Ends m spent r)
    (hr : (∃ o, r = .ok o) ∨ r = .error .notDecompressed) :
    spent = c.authenticationQuanta m ++ c.encryptionQuanta m := by
  cases h with
  | keysMissing | notVerified | forged | notDecrypted =>
    rcases hr with ⟨o, hr⟩ | hr
    · cases hr
    · cases hr
  | notDecompressed | decoded => rfl

end Ends

/-- A message whose keys are there is opened in one of the ways that `Ends` lists. -/
theorem opened_ends (h : c.HoldsKeysFor m) :
    ∃ spent, c.keys.Spends spent (c.opened m (examined m c.verifier c.decrypter) c.keys).2
      ∧ c.Ends m spent (c.opened m (examined m c.verifier c.decrypter) c.keys).1 := by
  obtain ⟨key, verified, key', last, hfetch, hfetch'⟩ :=
    KeyBuffer.exists_fetchIncoming_both (holdsKeysFor_iff.1 h)
  have hfirst : c.keys.Spends (c.authenticationQuanta m) verified :=
    KeyBuffer.spends_of_fetchIncoming hfetch
  have hboth : c.keys.Spends (c.authenticationQuanta m ++ c.encryptionQuanta m) last := by
    refine hfirst.append ?_
    rw [encryptionQuanta_eq, ← hfirst.quantum_eq]
    exact KeyBuffer.spends_of_fetchIncoming hfetch'
  have hlast : (decrypt m (examined m c.verifier c.decrypter) verified).2 = last := by
    rw [decrypt_snd, hfetch']
  -- what is verified was verified with the first key, so the second one is fetched next
  have hverified : ∀ keys, c.verify m (examined m c.verifier c.decrypter) c.keys = (.ok (), keys) →
      keys = verified := by
    intro keys hverify
    obtain ⟨key₁, hfetch₁, -⟩ := verify_eq_ok_iff.1 hverify
    cases hfetch.symm.trans hfetch₁
    rfl
  rcases hopened : c.opened m (examined m c.verifier c.decrypter) c.keys with ⟨failure | o, keys'⟩
  · rcases opened_eq_error hopened with hverify | ⟨keys, hverify, hdecrypt⟩
    · rcases verify_eq_error hverify with ⟨cause, hmissing, -⟩
        | ⟨key₁, hfetch₁, ⟨cause, htag, rfl⟩ | ⟨expected, htag, hne, rfl⟩⟩
      · cases hfetch.symm.trans hmissing
      · cases hfetch.symm.trans hfetch₁
        refine ⟨_, hfirst, .notVerified h ?_ cause⟩
        rw [tagDiffers_iff hfetch]
        rintro ⟨expected, hexpected, -⟩
        cases htag.symm.trans hexpected
      · cases hfetch.symm.trans hfetch₁
        exact ⟨_, hfirst, .forged h ((tagDiffers_iff hfetch).2 ⟨expected, htag, hne⟩)⟩
    · have hsame := not_tagDiffers_of_verify hverify
      obtain rfl := hverified keys hverify
      rcases hdecrypt with hdecrypt | ⟨payload, hdecrypt, rfl⟩
      · rw [hdecrypt] at hlast
        obtain rfl : keys' = last := hlast
        obtain ⟨r, hfetch₂, ⟨cause, rfl, -⟩ | ⟨cause, rfl⟩⟩ := decrypt_eq_error hdecrypt
        · cases hfetch'.symm.trans hfetch₂
        · exact ⟨_, hboth, .notDecrypted h hsame cause⟩
      · rw [hdecrypt] at hlast
        obtain rfl : keys' = last := hlast
        exact ⟨_, hboth, .notDecompressed h hsame⟩
  · obtain ⟨keys, payload, content, hverify, hdecrypt, -⟩ := opened_eq_ok_iff.1 hopened
    have hsame := not_tagDiffers_of_verify hverify
    obtain rfl := hverified keys hverify
    rw [hdecrypt] at hlast
    obtain rfl : keys' = last := hlast
    exact ⟨_, hboth, .decoded h hsame o⟩

/-- There are no other endings. -/
theorem decode_ends (h : ¬ c.TurnedAway m) :
    ∃ spent, c.keys.Spends spent (c.decode m).1.keys ∧ c.Ends m spent (c.decode m).2 := by
  have hexamine := examine_of_not_turnedAway h
  by_cases hholds : c.HoldsKeysFor m
  · rw [decode_of_available hexamine (holdsKeysFor_iff.1 hholds)]
    exact opened_ends hholds
  · have hmissing := Bool.eq_false_iff.2 fun havailable => hholds (holdsKeysFor_iff.2 havailable)
    rw [decode_of_keysMissing hexamine hmissing]
    exact ⟨[], .nil c.keys, .keysMissing hholds⟩

/-- The decoding fails with a failure of the given kind. -/
def FailsWith (c : Channel KeyBuffer) (m : Message) (kind : FailureKind) : Prop :=
  ∃ failure, (c.decode m).2 = .error failure ∧ failure.kind = kind

/-- Keys are missing exactly for a message that is not turned away and whose quanta are not all there,
    and then nothing is used. -/
theorem failsWith_keysMissing_iff :
    c.FailsWith m .keysMissing ↔ ¬ c.TurnedAway m ∧ ¬ c.HoldsKeysFor m := by
  constructor
  · rintro ⟨failure, herror, hkind⟩
    have haway : ¬ c.TurnedAway m := by
      intro h
      obtain ⟨cause, hdecode, hne, -⟩ := decode_of_turnedAway h
      rw [hdecode] at herror
      cases herror
      exact hne hkind
    obtain ⟨spent, -, hends⟩ := decode_ends haway
    rw [herror] at hends
    cases hends with
    | keysMissing h => exact ⟨haway, h⟩
    | notVerified | forged | notDecrypted | notDecompressed => cases hkind
  · rintro ⟨haway, hmissing⟩
    obtain ⟨spent, -, hends⟩ := decode_ends haway
    generalize hr : (c.decode m).2 = r at hends
    cases hends with
    | keysMissing => exact ⟨_, hr, rfl⟩
    | notVerified h | forged h | notDecrypted h | notDecompressed h | decoded h =>
      exact absurd h hmissing

/-- Whatever a channel holds and whatever a message says: decoding it changes nothing but the incoming
    quanta, and a message that is not decoded stays as it is.  Nothing is used for a message that is
    turned away or lacks keys; the quanta for authentication, and no others, for one with another tag;
    these and the quanta for encryption for one that is decoded, or that is not decompressed.  A context
    that fails has used the former or both. -/
theorem decode_spends_exactly (c : Channel KeyBuffer) (m : Message) :
    ∃ spent, (c.decode m).1 = { c with keys := (c.decode m).1.keys }
      ∧ c.keys.Spends spent (c.decode m).1.keys
      ∧ (∀ failure, (c.decode m).2 = .error failure →
        InPlace.decode.run ⟨c, m⟩ = .error failure ⟨(c.decode m).1, m⟩)
      ∧ (c.TurnedAway m → (c.decode m).1 = c ∧ ∃ failure, (c.decode m).2 = .error failure)
      ∧ (c.FailsWith m .keysMissing ↔ ¬ c.TurnedAway m ∧ ¬ c.HoldsKeysFor m)
      ∧ (c.FailsWith m .keysMissing → (c.decode m).1 = c)
      ∧ (¬ c.TurnedAway m → c.HoldsKeysFor m →
        (c.TagDiffers m ↔ c.FailsWith m .notAuthentic)
          ∧ (c.TagDiffers m → spent = c.authenticationQuanta m)
          ∧ (c.FailsWith m .contextFailed → spent = c.authenticationQuanta m
            ∨ spent = c.authenticationQuanta m ++ c.encryptionQuanta m))
      ∧ ((∃ o, (c.decode m).2 = .ok o) ∨ (c.decode m).2 = .error .notDecompressed →
        spent = c.authenticationQuanta m ++ c.encryptionQuanta m) := by
  have hleft : ∀ failure, (c.decode m).2 = .error failure →
      InPlace.decode.run ⟨c, m⟩ = .error failure ⟨(c.decode m).1, m⟩ :=
    fun _ => InPlace.run_decode_of_error
  have hmissing : c.FailsWith m .keysMissing → (c.decode m).1 = c := by
    intro h
    obtain ⟨haway, hholds⟩ := failsWith_keysMissing_iff.1 h
    rw [decode_of_keysMissing (examine_of_not_turnedAway haway)
      (Bool.eq_false_iff.2 fun havailable => hholds (holdsKeysFor_iff.2 havailable))]
  by_cases haway : c.TurnedAway m
  · obtain ⟨failure, hdecode, -, hne⟩ := decode_of_turnedAway haway
    refine ⟨[], decode_fst m, ?_, hleft, ?_, failsWith_keysMissing_iff, hmissing, ?_, ?_⟩
    · rw [hdecode]
      exact .nil c.keys
    · intro _
      rw [hdecode]
      exact ⟨rfl, failure, rfl⟩
    · intro h
      exact absurd haway h
    · rw [hdecode]
      rintro (⟨o, ho⟩ | h)
      · cases ho
      · cases h
        exact absurd rfl hne
  · obtain ⟨spent, hspends, hends⟩ := decode_ends haway
    refine ⟨spent, decode_fst m, hspends, hleft, ?_, failsWith_keysMissing_iff, hmissing, ?_,
      hends.spent_of_decrypted⟩
    · intro h
      exact absurd h haway
    · intro _ hholds
      refine ⟨hends.notAuthentic_iff hholds, hends.spent_of_tagDiffers hholds, ?_⟩
      rintro ⟨failure, hr, hkind⟩
      exact hends.spent_of_contextFailed hr hkind

/-- Accepting a message costs the one quantum that it names. -/
theorem decode_spends_exactly_messageByX :
    receiverByX.authenticationQuanta messageByX ++ receiverByX.encryptionQuanta messageByX = [1]
      ∧ receiverByX.keys.Spends [1] (receiverByX.decode messageByX).1.keys := by
  have hids : receiverByX.authenticationQuanta messageByX
      ++ receiverByX.encryptionQuanta messageByX = [1] := by decide +kernel
  obtain ⟨spent, -, hspends, -, -, -, -, -, hdecoded⟩ :=
    decode_spends_exactly receiverByX messageByX
  have hspent := hdecoded (Or.inl ⟨_, accepts_messageByX⟩)
  rw [hids] at hspent
  exact ⟨hids, by rwa [hspent] at hspends⟩

end OneTimeChannel.Channel

/-
  Decoding over key sources that keep a record.

  Which keys a decoding takes does not show in its result.  It does show if the key source writes down
  what it hands out, and a source that writes is as good as one that does not: decoding commutes with
  every map of key sources that respects the keys to receive with (`decode_mapKeys`), and forgetting the
  record is such a map.  So `Channel.keysTaken` is what the decoding of the channel itself takes.
-/
import OneTimeChannel.Channel.Decode

namespace OneTimeChannel

variable {K L : Type} [KeySource K] [KeySource L]

/-! ## Maps of key sources -/

/-- A map of key sources that respects what they hand out to send with. -/
structure KeySource.RespectsOutgoing (f : K → L) : Prop where
  fetchOutgoing : ∀ k length, KeySource.fetchOutgoing (f k) length
    = ((KeySource.fetchOutgoing k length).1, f (KeySource.fetchOutgoing k length).2)
  outgoingAvailable : ∀ k lengths,
    KeySource.outgoingAvailable (f k) lengths = KeySource.outgoingAvailable k lengths

/-- A map of key sources that respects what they hand out to receive with. -/
structure KeySource.RespectsIncoming (f : K → L) : Prop where
  fetchIncoming : ∀ k id length, KeySource.fetchIncoming (f k) id length
    = ((KeySource.fetchIncoming k id length).1, f (KeySource.fetchIncoming k id length).2)
  incomingAvailable : ∀ k requests,
    KeySource.incomingAvailable (f k) requests = KeySource.incomingAvailable k requests

/-- A map of key sources that respects what they hand out. -/
structure KeySource.Respects (f : K → L) : Prop extends KeySource.RespectsOutgoing f,
    KeySource.RespectsIncoming f

namespace Channel

/-- The channel with another key source. -/
def mapKeys (f : K → L) (c : Channel K) : Channel L where
  id := c.id
  association := c.association
  keys := f c.keys
  nextMessageId := c.nextMessageId
  compressionThreshold := c.compressionThreshold
  codec := c.codec

variable {f : K → L} {c : Channel K} {m : Message}

theorem verify_mapKeys (hf : KeySource.RespectsIncoming f) (e : Examined) (keys : K) :
    (c.mapKeys f).verify m e (f keys) = ((c.verify m e keys).1, f (c.verify m e keys).2) := by
  rw [verify, verify, hf.fetchIncoming]
  rcases KeySource.fetchIncoming keys m.header.authenticationKeyId e.authenticationKeyLength
    with ⟨_ | key, keys'⟩
  · rfl
  · dsimp only
    cases tagOf e.authentication m.header m.payload key with
    | error cause => rfl
    | ok expected =>
      dsimp only
      split <;> rfl

theorem decrypt_mapKeys (hf : KeySource.RespectsIncoming f) (e : Examined) (keys : K) :
    decrypt m e (f keys) = ((decrypt m e keys).1, f (decrypt m e keys).2) := by
  rw [decrypt, decrypt]
  split
  · rfl
  · next context hcontext =>
    rw [hf.fetchIncoming]
    rcases KeySource.fetchIncoming keys m.header.encryptionKeyId e.encryptionKeyLength
      with ⟨_ | key, keys'⟩
    · rfl
    · dsimp only
      cases context.finalize key <;> rfl

theorem opened_mapKeys (hf : KeySource.RespectsIncoming f) (e : Examined) (keys : K) :
    (c.mapKeys f).opened m e (f keys) = ((c.opened m e keys).1, f (c.opened m e keys).2) := by
  rw [opened, opened, verify_mapKeys hf]
  rcases c.verify m e keys with ⟨_ | _, verified⟩
  · rfl
  · dsimp only
    rw [decrypt_mapKeys hf]
    rcases decrypt m e verified with ⟨_ | payload, keys'⟩
    · rfl
    · have hexpand : (c.mapKeys f).expand m.header payload = c.expand m.header payload := rfl
      dsimp only
      rw [hexpand]
      cases c.expand m.header payload <;> rfl

/-- Decoding respects every map that key sources respect. -/
theorem decode_mapKeys (hf : KeySource.RespectsIncoming f) (c : Channel K) (m : Message) :
    (c.mapKeys f).decode m = ((c.decode m).1.mapKeys f, (c.decode m).2) := by
  -- up to here nobody has looked at the keys
  have hexamine : (c.mapKeys f).examine m = c.examine m := rfl
  rw [decode, decode, hexamine]
  cases c.examine m with
  | error failure => rfl
  | ok e =>
    have havailable : KeySource.incomingAvailable (c.mapKeys f).keys (e.requests m.header)
        = KeySource.incomingAvailable c.keys (e.requests m.header) := hf.incomingAvailable _ _
    have hopened : (c.mapKeys f).opened m e (c.mapKeys f).keys
        = ((c.opened m e c.keys).1, f (c.opened m e c.keys).2) := opened_mapKeys hf e c.keys
    dsimp only
    rw [havailable]
    split
    · rw [hopened]
      rfl
    · rfl

/-! ## What fetching keeps, decoding keeps -/

section Invariant

variable {P : K → Prop} (hfetch : ∀ k id length, P k → P (KeySource.fetchIncoming k id length).2)
include hfetch

theorem verify_keeps {e : Examined} {keys : K} (h : P keys) : P (c.verify m e keys).2 := by
  have hstep := hfetch keys m.header.authenticationKeyId e.authenticationKeyLength h
  rw [verify]
  generalize KeySource.fetchIncoming keys m.header.authenticationKeyId e.authenticationKeyLength = r
    at hstep ⊢
  rcases r with ⟨_ | key, keys'⟩
  · exact hstep
  · dsimp only
    cases tagOf e.authentication m.header m.payload key with
    | error cause => exact hstep
    | ok expected =>
      dsimp only
      split <;> exact hstep

theorem decrypt_keeps {e : Examined} {keys : K} (h : P keys) : P (decrypt m e keys).2 := by
  have hstep := hfetch keys m.header.encryptionKeyId e.encryptionKeyLength h
  rw [decrypt]
  split
  · exact h
  · next context hcontext =>
    generalize KeySource.fetchIncoming keys m.header.encryptionKeyId e.encryptionKeyLength = r
      at hstep ⊢
    rcases r with ⟨_ | key, keys'⟩
    · exact hstep
    · dsimp only
      cases context.finalize key <;> exact hstep

theorem opened_keeps {e : Examined} {keys : K} (h : P keys) : P (c.opened m e keys).2 := by
  have hverify : P (c.verify m e keys).2 := verify_keeps hfetch h
  rw [opened]
  generalize c.verify m e keys = r at hverify ⊢
  rcases r with ⟨_ | _, verified⟩
  · exact hverify
  · have hdecrypt : P (decrypt m e verified).2 := decrypt_keeps hfetch hverify
    dsimp only
    generalize decrypt m e verified = r at hdecrypt ⊢
    rcases r with ⟨_ | payload, keys'⟩
    · exact hdecrypt
    · dsimp only
      cases c.expand m.header payload <;> exact hdecrypt

/-- A property of key sources that fetching keys to receive with does not touch is not touched by
    decoding either. -/
theorem decode_keeps (h : P c.keys) : P (c.decode m).1.keys := by
  have hopened : ∀ e, P (c.opened m e c.keys).2 := fun e => opened_keeps hfetch h
  rw [decode]
  split
  · exact h
  · next e he =>
    split
    · exact hopened e
    · exact h

end Invariant

end Channel

/-! ## Records -/

/-- A key source with a record of the keys to receive with that it handed out, each an id and a
    length. -/
structure Ledger (K : Type) where
  source : K
  received : List (UInt32 × Nat) := []

namespace Ledger

/-- Writes down a key if one was handed out. -/
def note (l : Ledger K) (id : UInt32) (length : Nat) :
    Except KeyError Key × K → Except KeyError Key × Ledger K
  | (.ok key, source) => (.ok key, { source, received := l.received ++ [(id, length)] })
  | (.error e, source) => (.error e, { l with source })

instance : KeySource (Ledger K) where
  fetchOutgoing l length :=
    match KeySource.fetchOutgoing l.source length with
    | (r, source) => (r, { l with source })
  fetchIncoming l id length := l.note id length (KeySource.fetchIncoming l.source id length)
  outgoingAvailable l := KeySource.outgoingAvailable l.source
  incomingAvailable l := KeySource.incomingAvailable l.source

/-- Nobody notices the record. -/
theorem respects_source : KeySource.Respects (source : Ledger K → K) where
  fetchOutgoing _ _ := rfl
  fetchIncoming l id length := by
    have hnote : KeySource.fetchIncoming l id length
        = l.note id length (KeySource.fetchIncoming l.source id length) := rfl
    rw [hnote]
    rcases KeySource.fetchIncoming l.source id length with ⟨_ | key, source⟩ <;> rfl
  outgoingAvailable _ _ := rfl
  incomingAvailable _ _ := rfl

end Ledger

namespace Channel

/-- The keys that decoding a message takes, each an id and a length, in the order of their use. -/
def keysTaken (c : Channel K) (m : Message) : List (UInt32 × Nat) :=
  ((c.mapKeys fun keys => ({ source := keys } : Ledger K)).decode m).1.keys.received

end Channel

end OneTimeChannel

/-
  A message that is not encoded leaves no trace but lost keys.

  Before the keys of a draft are known to be there nothing is taken, so the failures up to then change
  nothing.  After that a key cannot be missing any more (`kind_of_complete_eq_error`): the buffer only
  counts quanta, but it has them in a row, and so the second key is still there when the first one was
  taken.  What is left are failures of contexts, and these may cost keys.  So where keys are missing,
  the message can be encoded later as if it had not been tried before.

  This needs the invariant `KeyBuffer.Sends`, which holds of the keys of every channel that comes
  about by using it (`Reached.reached_keys`).
-/
import OneTimeChannel.Proofs.Channel.Dispatch
import OneTimeChannel.Proofs.Channel.Reception

namespace OneTimeChannel.Channel

open KeyBuffer (Sends)

/-! ## Channels in use -/

/-- The channels that come about by using them, over key buffers with quanta of `q` bytes, with the
    streams that were delivered to their buffers.  Contexts and keys may be replaced at any time. -/
inductive Reached (q : Nat) : (sent received : Bytes) → Channel KeyBuffer → Prop where
  | new {id : UInt16} {association : Association} {sent received : Bytes} {keys : KeyBuffer}
    {c : Channel KeyBuffer} (hkeys : KeyBuffer.Reached q sent received keys)
    (h : ofAssociation id association keys = .ok c) (codec : Codec) :
    Reached q sent received (c.withCodec codec)
  | dispatch {sent received : Bytes} {c : Channel KeyBuffer} (h : Reached q sent received c)
    (d : Dispatch) : Reached q (sent ++ Dispatch.delivered [d]) received (c.dispatch d)
  | receive {sent received : Bytes} {c : Channel KeyBuffer} (h : Reached q sent received c)
    (a : Arrival) : Reached q sent (received ++ Arrival.delivered [a]) (c.receive a)
  | replaceAssociation {sent received : Bytes} {c : Channel KeyBuffer}
    (h : Reached q sent received c) (association : Association) :
    Reached q sent received { c with association }
  | replaceKeys {sent received sent' received' : Bytes} {c : Channel KeyBuffer} {keys : KeyBuffer}
    (h : Reached q sent received c) (hkeys : KeyBuffer.Reached q sent' received' keys) :
    Reached q sent' received' { c with keys }

variable {q n : Nat} {sent received stream : Bytes} {c : Channel KeyBuffer} {d : Draft}
  {keys keys' : KeyBuffer} {m : Message} {failure : Failure}

/-- What encoding does to a key buffer can be done to it one key at a time. -/
theorem reached_encode (h : KeyBuffer.Reached q sent received c.keys) (m : Message) :
    KeyBuffer.Reached q sent received (c.encode m).1.keys :=
  encode_keeps (P := KeyBuffer.Reached q sent received) (fun _ length h => h.fetchOutgoing length) h

theorem reached_decode (h : KeyBuffer.Reached q sent received c.keys) (m : Message) :
    KeyBuffer.Reached q sent received (c.decode m).1.keys :=
  decode_keeps (P := KeyBuffer.Reached q sent received)
    (fun _ id length h => h.fetchIncoming id length) h

theorem reached_dispatch (h : KeyBuffer.Reached q sent received c.keys) (d : Dispatch) :
    KeyBuffer.Reached q (sent ++ Dispatch.delivered [d]) received (c.dispatch d).keys := by
  cases d with
  | keys bytes =>
    rw [Dispatch.delivered, Dispatch.delivered, List.append_nil]
    exact h.pushOutgoing bytes
  | threshold bytes =>
    rw [Dispatch.delivered, Dispatch.delivered, List.append_nil]
    exact h
  | message m =>
    rw [Dispatch.delivered, Dispatch.delivered, List.append_nil]
    exact reached_encode h m

theorem reached_receive (h : KeyBuffer.Reached q sent received c.keys) (a : Arrival) :
    KeyBuffer.Reached q sent (received ++ Arrival.delivered [a]) (c.receive a).keys := by
  cases a with
  | keys bytes =>
    rw [Arrival.delivered, Arrival.delivered, List.append_nil]
    exact h.pushIncoming bytes
  | message m =>
    rw [Arrival.delivered, Arrival.delivered, List.append_nil]
    exact reached_decode h m

/-- A channel in use has keys in use. -/
theorem Reached.reached_keys (h : Reached q sent received c) : KeyBuffer.Reached q sent received c.keys := by
  induction h with
  | new hkeys h codec =>
    rw [ofAssociation] at h
    split at h
    · cases h
    · cases h
      exact hkeys
  | dispatch _ d ih => exact reached_dispatch ih d
  | receive _ a ih => exact reached_receive ih a
  | replaceAssociation _ _ ih => exact ih
  | replaceKeys _ hkeys _ => exact hkeys

/-! ## Failures after the keys were found -/

/-- Once the keys of a draft are known to be there, only a context can fail. -/
theorem kind_of_complete_eq_error (hkeys : keys.Sends stream n)
    (hbound : stream.length / keys.quantum < 2 ^ 32 - 1) (hid : d.header.encryptionKeyId = 0)
    (havailable : keys.outgoingAvailable d.keyLengths = true)
    (h : d.complete keys = (.error failure, keys')) : failure.kind = .contextFailed := by
  obtain ⟨r, between, r', last, hfirst, hsecond⟩ :=
    hkeys.exists_fetchOutgoing_both hbound havailable
  rcases complete_eq_error h with hencrypt | ⟨d', between', hencrypt, hauthenticate⟩
  · rcases encrypt_eq_error hencrypt with ⟨cause, hfetch⟩ | hkind
    · rw [hfirst] at hfetch
      cases hfetch
    · exact hkind
  · obtain ⟨key, hfetch, hd'⟩ := fetchOutgoing_of_encrypt hid hencrypt
    obtain rfl : between = between' := by
      rw [hfirst] at hfetch
      exact (Prod.mk.inj hfetch).2
    have hlength : d'.authenticationKeyLength = d.authenticationKeyLength := by
      rw [hd', Draft.maybeEncrypted]
      split <;> rfl
    rcases authenticate_eq_error hauthenticate with ⟨cause, hfetch'⟩ | hkind
    · rw [hlength, hsecond] at hfetch'
      cases hfetch'
    · exact hkind

/-- A message that is not encoded either leaves the channel as it was, or a context has failed and
    nothing but keys is gone. -/
theorem encode_eq_error (hkeys : c.keys.Sends stream n)
    (hbound : stream.length / c.keys.quantum < 2 ^ 32 - 1) (h : (c.encode m).2 = .error failure) :
    (c.encode m).1 = c
      ∨ failure.kind = .contextFailed ∧ (c.encode m).1 = { c with keys := (c.encode m).1.keys } := by
  rcases encode_cases c m with ⟨cause, hencode⟩
    | ⟨d, hdraft, havailable, ⟨cause, keys', hcomplete, hencode⟩ | ⟨encoded, keys', -, hencode⟩⟩
  · rw [hencode]
    exact Or.inl rfl
  · have hid : d.header.encryptionKeyId = 0 := by
      obtain ⟨authentication, encryption, payload, -, rfl⟩ := draft_eq_ok_iff.1 hdraft
      rfl
    have hkind := kind_of_complete_eq_error hkeys hbound hid havailable hcomplete
    rw [hencode] at h ⊢
    cases h
    exact Or.inr ⟨hkind, rfl⟩
  · rw [hencode] at h
    cases h

/-- Whatever a channel was used for: where encoding a message fails, the message stays as it is, and so
    does the channel but for its keys.  The keys stay, too, unless a context has failed.  So a message
    for which keys were missing can be encoded when more have arrived, with the same outcome as if it
    had not been tried before. -/
theorem encode_atomic (hc : Reached q sent received c) (hbound : sent.length / q < 2 ^ 32 - 1)
    (h : (c.encode m).2 = .error failure) :
    InPlace.encode.run ⟨c, m⟩ = .error failure ⟨(c.encode m).1, m⟩
      ∧ (c.encode m).1 = { c with keys := (c.encode m).1.keys }
      ∧ (failure.kind ≠ .contextFailed → (c.encode m).1 = c)
      ∧ (failure.kind = .keysMissing → ∀ bytes,
        ((c.encode m).1.dispatch (.keys bytes)).encode m = (c.dispatch (.keys bytes)).encode m) := by
  have hkeys := hc.reached_keys
  obtain ⟨n, hsends⟩ := hkeys.exists_sends hbound
  have hcases := encode_eq_error hsends (by rwa [hkeys.quantum_eq]) h
  have hsame : failure.kind ≠ .contextFailed → (c.encode m).1 = c := by
    intro hne
    rcases hcases with hsame | ⟨hkind, -⟩
    · exact hsame
    · exact absurd hkind hne
  refine ⟨InPlace.run_encode_of_error h, ?_, hsame, ?_⟩
  · rcases hcases with hsame | ⟨-, hframe⟩
    · rw [hsame]
    · exact hframe
  · intro hmissing bytes
    rw [hsame (by rw [hmissing]; decide)]

/-- A sender that has sent one message with three of its five quanta, and lacks one for the next. -/
def spentSender : Channel KeyBuffer :=
  (padSender.dispatch (.keys (List.replicate 20 5))).dispatch
    (.message ((Message.ofPayload 9 [7]).withEncryption true))

theorem reached_spentSender : Reached 4 (List.replicate 20 5) [] spentSender := by
  have hkeys : KeyBuffer.Reached 4 [] [] padSender.keys := .new rfl
  have hnew : ofAssociation 1 padSender.association padSender.keys = .ok padSender := rfl
  exact ((Reached.new hkeys hnew .stored).dispatch (.keys (List.replicate 20 5))).dispatch
    (.message ((Message.ofPayload 9 [7]).withEncryption true))

theorem encode_atomic_spentSender :
    let m := (Message.ofPayload 9 [7]).withEncryption true
    (spentSender.encode m).2 = .error (.outgoingKeysMissing 1 2)
      ∧ (spentSender.encode m).1 = spentSender
      ∧ ∀ bytes, ((spentSender.encode m).1.dispatch (.keys bytes)).encode m
        = (spentSender.dispatch (.keys bytes)).encode m := by
  intro m
  have herror : (spentSender.encode m).2 = .error (.outgoingKeysMissing 1 2) := by cbv
  obtain ⟨-, -, hsame, hagain⟩ := encode_atomic reached_spentSender (by decide) herror
  exact ⟨herror, hsame (by decide), hagain rfl⟩

end OneTimeChannel.Channel

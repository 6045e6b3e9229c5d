/-
  A failure leaves the message alone.

  In place a failure keeps whatever was written before it (`InPlace`).  That the message is not among it
  holds because of the order: all that can fail comes before the first write to the message.  So the steps
  in place come to the same as `encode` and `decode` (`run_encode`, `run_decode`), where a failure says
  nothing about the message: if there is a result it is in the place of the message, and so is the id of
  the next message in its own; if there is none, the message is as it was, and of the channel the keys are
  gone that were taken.
-/
import OneTimeChannel.Channel.InPlace

namespace OneTimeChannel.Channel

variable {K α : Type} {c : Channel K} {m : Message} {failure : Failure}

/-- What a step in place comes to, told by the channel and the result that it gives back. -/
def settled (m : Message) : Channel K × Except Failure Message → EStateM.Result Failure (Work K) Unit
  | (c, .ok result) => .ok () ⟨c, result⟩
  | (c, .error failure) => .error failure ⟨c, m⟩

@[simp] theorem settled_ok (m result : Message) (c : Channel K) :
    settled m (c, .ok result) = .ok () ⟨c, result⟩ := rfl

@[simp] theorem settled_error (m : Message) (c : Channel K) (failure : Failure) :
    settled m (c, .error failure) = .error failure ⟨c, m⟩ := rfl

theorem settled_of_eq_error {r : Channel K × Except Failure Message} (h : r.2 = .error failure) :
    settled m r = .error failure ⟨r.1, m⟩ := by
  obtain ⟨c', r⟩ := r
  cases h
  rfl

namespace InPlace

/-- The message that a step leaves. -/
def left : EStateM.Result Failure (Work K) α → Message
  | .ok _ w => w.message
  | .error _ w => w.message

/-- It is the result, if there is one. -/
theorem left_settled (m : Message) (r : Channel K × Except Failure Message) :
    left (settled m r) = r.2.toOption.getD m := by
  obtain ⟨c, result | failure⟩ := r
  · rfl
  · rfl

@[simp] theorem run_looking_ok (a : α) (w : Work K) : (looking (.ok a)).run w = .ok a w := rfl

@[simp] theorem run_looking_error (failure : Failure) (w : Work K) :
    (looking (α := α) (.error failure)).run w = .error failure w := rfl

/-- The channel is left with the keys that the step leaves, whatever its result. -/
@[simp] theorem run_takingKeys (step : K → Except Failure α × K) (w : Work K) :
    (takingKeys step).run w
      = (looking (step w.channel.keys).1).run
        { w with channel := { w.channel with keys := (step w.channel.keys).2 } } := rfl

variable [KeySource K]

/-- Encoding in place comes to what `encode` gives back. -/
theorem run_encode (c : Channel K) (m : Message) : encode.run ⟨c, m⟩ = settled m (c.encode m) := by
  rw [Channel.encode]
  cases hdraft : c.draft m with
  | error failure => simp [encode, hdraft]
  | ok d =>
    cases havailable : KeySource.outgoingAvailable c.keys d.keyLengths with
    | false => simp [encode, hdraft, havailable]
    | true =>
      -- all that can fail from here on takes keys, and comes before the message is written
      rcases hencrypt : d.encrypt c.keys with ⟨failure | encrypted, keys⟩
      · simp [encode, hdraft, havailable, Draft.complete, hencrypt]
      rcases hauthenticate : encrypted.authenticate keys with ⟨failure | encoded, keys'⟩
      · simp [encode, hdraft, havailable, Draft.complete, hencrypt, hauthenticate]
      · simp [encode, hdraft, havailable, Draft.complete, hencrypt, hauthenticate, writeHeader,
          writePayload, writeTag, writeNextMessageId]

/-- Decoding in place comes to what `decode` gives back. -/
theorem run_decode (c : Channel K) (m : Message) : decode.run ⟨c, m⟩ = settled m (c.decode m) := by
  rw [Channel.decode]
  cases hexamine : c.examine m with
  | error failure => simp [decode, hexamine]
  | ok e =>
    cases havailable : KeySource.incomingAvailable c.keys (e.requests m.header) with
    | false => simp [decode, hexamine, havailable]
    | true =>
      rcases hverify : c.verify m e c.keys with ⟨failure | _, keys⟩
      · simp [decode, hexamine, havailable, opened, hverify]
      rcases hdecrypt : Channel.decrypt m e keys with ⟨failure | payload, keys'⟩
      · simp [decode, hexamine, havailable, opened, hverify, hdecrypt]
      cases hexpand : c.expand m.header payload with
      | error failure => simp [decode, hexamine, havailable, opened, hverify, hdecrypt, hexpand]
      | ok content =>
        simp [decode, hexamine, havailable, opened, hverify, hdecrypt, hexpand, writePayload, writeTag]

theorem left_run_encode (c : Channel K) (m : Message) :
    left (encode.run ⟨c, m⟩) = (c.encode m).2.toOption.getD m := by
  rw [run_encode, left_settled]

theorem left_run_decode (c : Channel K) (m : Message) :
    left (decode.run ⟨c, m⟩) = (c.decode m).2.toOption.getD m := by
  rw [run_decode, left_settled]

/-- A message that is not encoded in place stays as it is. -/
theorem run_encode_of_error (h : (c.encode m).2 = .error failure) :
    encode.run ⟨c, m⟩ = .error failure ⟨(c.encode m).1, m⟩ := by
  rw [run_encode, settled_of_eq_error h]

/-- A message that is not decoded in place stays as it is. -/
theorem run_decode_of_error (h : (c.decode m).2 = .error failure) :
    decode.run ⟨c, m⟩ = .error failure ⟨(c.decode m).1, m⟩ := by
  rw [run_decode, settled_of_eq_error h]

end InPlace

end OneTimeChannel.Channel

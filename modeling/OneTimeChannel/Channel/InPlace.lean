/-
  Encoding and decoding in place.

  A caller hands a message over and finds it in the same place afterwards, encoded or decoded, or with
  a failure.  `encode` and `decode` give back a message only where there is one, so there is no message
  left that could be half written.  In place this is another matter: keys are gone as soon as they are
  taken, the parts of the message are written one after the other, and a failure keeps what was written
  before it.  Here are the two with their writes, in the order in which they are made.

  Core only.
-/
import OneTimeChannel.Channel.Decode
import OneTimeChannel.Channel.Encode

namespace OneTimeChannel.Channel

/-- A channel and the message that it works on. -/
structure Work (K : Type) where
  channel : Channel K
  message : Message

/-- A step on a channel and a message that are changed where they are.  It ends with a value or a
    failure, and in both cases with the two as they are by then. -/
abbrev InPlace (K α : Type) := EStateM Failure (Work K) α

namespace InPlace

variable {K α : Type}

/-- A step that changes nothing. -/
def looking (result : Except Failure α) : InPlace K α :=
  match result with
  | .ok a => pure a
  | .error failure => throw failure

/-- A step that takes keys and changes nothing else.  They are gone whatever comes of it. -/
def takingKeys (step : K → Except Failure α × K) : InPlace K α := do
  let (result, keys) := step (← get).channel.keys
  modify fun w => { w with channel := { w.channel with keys } }
  looking result

/-! ## Writes -/

def writeHeader (header : Header) : InPlace K Unit :=
  modify fun w => { w with message := { w.message with header } }

def writePayload (payload : Bytes) : InPlace K Unit :=
  modify fun w => { w with message := { w.message with payload } }

def writeTag (tag : Bytes) : InPlace K Unit :=
  modify fun w => { w with message := { w.message with tag } }

def writeNextMessageId (nextMessageId : UInt32) : InPlace K Unit :=
  modify fun w => { w with channel := { w.channel with nextMessageId } }

/-! ## Encoding and decoding -/

variable [KeySource K]

/-- Encodes the message.  It is written when its last part is there, and counted after that. -/
def encode : InPlace K Unit := do
  let ⟨c, m⟩ ← get
  let draft ← looking (c.draft m)
  if !KeySource.outgoingAvailable c.keys draft.keyLengths then
    throw (.outgoingKeysMissing c.id c.nextMessageId)
  let encrypted ← takingKeys draft.encrypt
  let encoded ← takingKeys encrypted.authenticate
  writeHeader encoded.header
  writePayload encoded.payload
  writeTag encoded.tag
  writeNextMessageId (c.nextMessageId + 1)

/-- Decodes the message.  The payload is written when it is verified, decrypted and expanded, and the
    tag is cleared after that. -/
def decode : InPlace K Unit := do
  let ⟨c, m⟩ ← get
  let examined ← looking (c.examine m)
  if !KeySource.incomingAvailable c.keys (examined.requests m.header) then
    throw (.incomingKeysMissing c.id m.header.messageId)
  takingKeys (c.verify m examined)
  let payload ← takingKeys (Channel.decrypt m examined)
  let payload ← looking (c.expand m.header payload)
  writePayload payload
  writeTag []

end InPlace

end OneTimeChannel.Channel

/-
  Channels: one end of a tunnel.

  A channel has an association, whose four contexts are templates that every message gets copies
  of, a source of keys, and a codec for long payloads.  Encoding and decoding change nothing but the
  key source and the id of the next message; see `Channel.Encode` and `Channel.Decode`, and
  `Channel.InPlace` for the two as they are called.

  Core only.
-/
import OneTimeChannel.Association.Basic
import OneTimeChannel.Channel.Failure
import OneTimeChannel.Compression.Codec
import OneTimeChannel.Keys.Source
import OneTimeChannel.Message

namespace OneTimeChannel

/-- Payloads above this many bytes are compressed even if they are not encrypted. -/
def defaultCompressionThreshold : Nat := 32 * 1024

/-- The largest payload before compression and after decompression. -/
def maxPayload : Nat := 16 * 1024 * 1024

/-- One end of a tunnel, with keys from a source of type `K`. -/
structure Channel (K : Type) where
  id : UInt16
  association : Association
  keys : K
  nextMessageId : UInt32 := 1
  compressionThreshold : Nat := defaultCompressionThreshold
  codec : Codec := .stored

namespace Channel

variable {K : Type}

/-! ## Setting up -/

/-- The first context for authentication that uses up a key byte for each byte of data, and so does
    not produce tags of one size. -/
def unfit? (a : Association) : Option Context :=
  [a.authenticationIncoming, a.authenticationOutgoing].find? Context.consumesKeyPerByte

/-- A channel with the given association. -/
def ofAssociation (id : UInt16) (association : Association) (keys : K) :
    Except SetupError (Channel K) :=
  match unfit? association with
  | some c => .error (.notAuthenticating c.name)
  | none => .ok { id, association, keys }

/-- A channel with the association of a definition. -/
def ofDefinition (id : UInt16) (definition : AssociationDefinition) (keys : K) :
    Except SetupError (Channel K) :=
  match Association.ofDefinition definition with
  | .error cause => .error (.association id cause)
  | .ok association => ofAssociation id association keys

variable (c : Channel K)

def withCompressionThreshold (threshold : Nat) : Channel K :=
  { c with compressionThreshold := threshold }

def withCodec (codec : Codec) : Channel K := { c with codec }

/-- How long the tags of incoming messages are. -/
def incomingTagLength : Nat := c.association.authenticationIncoming.resultSize

/-! ## What encoding and decoding share -/

/-- A copy of a context of the association. -/
def fresh (slot : Slot) : Except Failure Context :=
  match (c.association.get slot).copy with
  | .ok context => .ok context
  | .error cause => .error (.noCopy cause)

/-- The tag of a header and a payload. -/
def tagOf (context : Context) (header : Header) (payload : Bytes) (key : Key) :
    Except Context.Error Bytes := do
  let context ← context.add header.toBytes
  let context ← context.add payload
  let (_, tag) ← context.finalize key
  return tag

end Channel

end OneTimeChannel

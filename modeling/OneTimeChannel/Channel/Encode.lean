/-
  Encoding messages.

  A message is drafted first: checked, compressed if it is long or will be encrypted, handed to
  fresh copies of the contexts, and measured.  Nothing is taken before the keys of the draft are
  known to be there, so up to this point a failure leaves the channel as it was.  Then the draft is
  encrypted, if asked for, and authenticated, in this order and each with a key of its own.

  Core only.
-/
import OneTimeChannel.Channel.Basic

namespace OneTimeChannel.Channel

variable {K : Type} [KeySource K]

/-- A message that lacks nothing but its keys. -/
structure Draft where
  header : Header
  /-- The payload, compressed if the header says so. -/
  payload : Bytes
  authentication : Context
  /-- The context that has taken in the payload, if it is to be encrypted. -/
  encryption : Option Context
  /-- The length of the encoded message. -/
  length : UInt32

namespace Draft

variable (d : Draft)

def encryptionKeyLength : Nat :=
  match d.encryption with
  | some context => context.finalKeySize
  | none => 0

def authenticationKeyLength : Nat := d.authentication.finalKeySize

/-- The keys of the draft, in the order in which they are taken. -/
def keyLengths : List Nat := [d.encryptionKeyLength, d.authenticationKeyLength]

/-- Encrypts the payload with a key from the source, if the draft asks for it. -/
def encrypt (keys : K) : Except Failure Draft × K :=
  match d.encryption with
  | none => (.ok d, keys)
  | some context =>
    match KeySource.fetchOutgoing keys context.finalKeySize with
    | (.error cause, keys) => (.error (.key cause), keys)
    | (.ok (id, key), keys) =>
      match context.finalize key with
      | .error cause => (.error (.context cause), keys)
      | .ok (_, payload) =>
        let header := { d.header.setFlag .encrypted true with encryptionKeyId := id }
        (.ok { d with header, payload }, keys)

/-- Completes the header and attaches the tag. -/
def authenticate (keys : K) : Except Failure Message × K :=
  match KeySource.fetchOutgoing keys d.authenticationKeyLength with
  | (.error cause, keys) => (.error (.key cause), keys)
  | (.ok (id, key), keys) =>
    let header := { d.header with authenticationKeyId := id, length := d.length }
    match tagOf d.authentication header d.payload key with
    | .error cause => (.error (.context cause), keys)
    | .ok tag =>
      if tag.length = d.authentication.resultSize then
        (.ok { header, payload := d.payload, tag }, keys)
      else (.error .tagSize, keys)

/-- The encoded message. -/
def complete (keys : K) : Except Failure Message × K :=
  match d.encrypt keys with
  | (.error failure, keys) => (.error failure, keys)
  | (.ok d, keys) => d.authenticate keys

end Draft

variable (c : Channel K)

/-- Whether the payload of a message is to be encrypted: only if its sender asks for it, and never
    with a context that does nothing. -/
def encrypts (m : Message) (encryption : Context) : Bool :=
  m.header.has .encrypted && !encryption.isNull

/-- Whether the payload of a message is to be compressed. -/
def compresses (m : Message) (encryption : Context) : Bool :=
  decide (c.compressionThreshold < m.payload.length) || encrypts m encryption

/-- The header of a message as far as it is known without keys. -/
def draftHeader (m : Message) (compressed : Bool) : Header :=
  let header : Header :=
    { command := m.header.command, messageId := c.nextMessageId, channelId := c.id }
  (header.setFlag .authentic true).setFlag .compressed compressed

/-- The payload as it is sent, before encryption. -/
def pack (payload : Bytes) (compressed : Bool) : Except Failure Bytes :=
  if compressed then
    match c.codec.compress payload with
    | .ok packed => .ok packed
    | .error cause => .error (.notCompressed cause)
  else .ok payload

/-- The context for encryption with the payload in it, if the message is to be encrypted. -/
def absorbPayload (m : Message) (encryption : Context) (payload : Bytes) :
    Except Failure (Option Context) :=
  if encrypts m encryption then
    match encryption.add payload with
    | .ok encryption => .ok (some encryption)
    | .error cause => .error (.context cause)
  else .ok none

/-- Prepares a message for its keys. -/
def draft (m : Message) : Except Failure Draft := do
  if c.id = 0 then throw .reservedChannel
  if maxPayload < m.payload.length then throw .payloadTooLarge
  if c.nextMessageId + 1 = 0 then throw .messageIdsExhausted
  let authentication ← c.fresh .authenticationOutgoing
  let encryption ← c.fresh .encryptionOutgoing
  let compressed := c.compresses m encryption
  let payload ← c.pack m.payload compressed
  let absorbed ← absorbPayload m encryption payload
  let length := headerSize + payload.length + authentication.resultSize
  if UInt32.size ≤ length then throw .lengthOverflow
  return {
    header := c.draftHeader m compressed
    payload
    authentication
    encryption := absorbed
    length := UInt32.ofNat length }

/-- Encodes a message.  The channel that is returned differs from the given one in the key source
    and, on success, in the id of the next message. -/
def encode (m : Message) : Channel K × Except Failure Message :=
  match c.draft m with
  | .error failure => (c, .error failure)
  | .ok d =>
    if KeySource.outgoingAvailable c.keys d.keyLengths then
      match d.complete c.keys with
      | (.ok encoded, keys) =>
        ({ c with keys, nextMessageId := c.nextMessageId + 1 }, .ok encoded)
      | (.error failure, keys) => ({ c with keys }, .error failure)
    else (c, .error (.outgoingKeysMissing c.id c.nextMessageId))

end OneTimeChannel.Channel

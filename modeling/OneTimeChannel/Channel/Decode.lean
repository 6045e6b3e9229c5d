/-
  Decoding messages.

  A message is examined first, without any key: its header, the length of its tag, and whether it
  can be decrypted at all.  Then the keys that it names have to be there, all of them.  The tag is
  verified with the first one, which is gone afterwards whatever the outcome; only then is the
  payload decrypted and decompressed.

  Core only.
-/
import OneTimeChannel.Channel.Basic

namespace OneTimeChannel.Channel

variable {K : Type} [KeySource K]

/-- The contexts that will check and decrypt a message. -/
structure Examined where
  authentication : Context
  /-- The context that has taken in the payload, if it is encrypted. -/
  encryption : Option Context

namespace Examined

variable (e : Examined)

def authenticationKeyLength : Nat := e.authentication.finalKeySize

def encryptionKeyLength : Nat :=
  match e.encryption with
  | some context => context.finalKeySize
  | none => 0

/-- The keys that a message with the given header names, in the order in which they are taken. -/
def requests (header : Header) : List (UInt32 × Nat) :=
  [(header.authenticationKeyId, e.authenticationKeyLength),
    (header.encryptionKeyId, e.encryptionKeyLength)]

end Examined

variable (c : Channel K)

/-- Whether the header fits the channel, the version and the message. -/
def admits (m : Message) : Bool :=
  m.header.channelId != 0 && m.header.channelId == c.id && m.header.version == protocolVersion
    && m.header.has .authentic && m.isLengthConsistent

/-- The refusal of a message whose tag is wrong. -/
def forged (header : Header) : Failure :=
  .notAuthentic c.id header.messageId header.authenticationKeyId header.encryptionKeyId

/-- Checks what can be checked without a key. -/
def examine (m : Message) : Except Failure Examined := do
  if !c.admits m then throw .badHeader
  let authentication ← c.fresh .authenticationIncoming
  let encryption ← c.fresh .encryptionIncoming
  if m.header.has .encrypted && encryption.isNull then
    throw (.noDecryption c.id m.header.messageId)
  if m.tag.length ≠ authentication.resultSize then throw (c.forged m.header)
  if m.header.has .encrypted then
    match encryption.add m.payload with
    | .ok encryption => return { authentication, encryption := some encryption }
    | .error cause => throw (.context cause)
  else return { authentication, encryption := none }

/-- Verifies the tag with a key from the source. -/
def verify (m : Message) (e : Examined) (keys : K) : Except Failure Unit × K :=
  match KeySource.fetchIncoming keys m.header.authenticationKeyId e.authenticationKeyLength with
  | (.error cause, keys) => (.error (.key cause), keys)
  | (.ok key, keys) =>
    match tagOf e.authentication m.header m.payload key with
    | .error cause => (.error (.context cause), keys)
    | .ok expected =>
      if sameBytes expected m.tag then (.ok (), keys) else (.error (c.forged m.header), keys)

/-- Decrypts the payload with a key from the source, if it is encrypted. -/
def decrypt (m : Message) (e : Examined) (keys : K) : Except Failure Bytes × K :=
  match e.encryption with
  | none => (.ok m.payload, keys)
  | some context =>
    match KeySource.fetchIncoming keys m.header.encryptionKeyId e.encryptionKeyLength with
    | (.error cause, keys) => (.error (.key cause), keys)
    | (.ok key, keys) =>
      match context.finalize key with
      | .error cause => (.error (.context cause), keys)
      | .ok (_, payload) => (.ok payload, keys)

/-- The payload as it was before compression. -/
def expand (header : Header) (payload : Bytes) : Except Failure Bytes :=
  if header.has .compressed then
    match c.codec.decompress? maxPayload payload with
    | some content =>
      if maxPayload < content.length then .error .notDecompressed else .ok content
    | none => .error .notDecompressed
  else .ok payload

/-- Verifies, decrypts and expands an examined message. -/
def opened (m : Message) (e : Examined) (keys : K) : Except Failure Message × K :=
  match c.verify m e keys with
  | (.error failure, keys) => (.error failure, keys)
  | (.ok (), keys) =>
    match decrypt m e keys with
    | (.error failure, keys) => (.error failure, keys)
    | (.ok payload, keys) =>
      match c.expand m.header payload with
      | .error failure => (.error failure, keys)
      | .ok payload => (.ok { header := m.header, payload }, keys)

/-- Decodes a message.  The channel that is returned differs from the given one in the key source
    only. -/
def decode (m : Message) : Channel K × Except Failure Message :=
  match c.examine m with
  | .error failure => (c, .error failure)
  | .ok e =>
    if KeySource.incomingAvailable c.keys (e.requests m.header) then
      match c.opened m e c.keys with
      | (result, keys) => ({ c with keys }, result)
    else (c, .error (.incomingKeysMissing c.id m.header.messageId))

end OneTimeChannel.Channel

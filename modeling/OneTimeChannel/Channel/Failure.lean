/-
  Why a channel refuses.

  A failure keeps its cause.  What callers have to tell apart is only its kind: missing key material
  is worth another try, a tag that does not match may be an attack, and everything else is neither.
  The kind, its text and the lines that go to the log are functions of the cause.

  Core only.
-/
import OneTimeChannel.Cipher.Context
import OneTimeChannel.Keys.Source
import OneTimeChannel.Log

namespace OneTimeChannel.Channel

/-! ## Kinds -/

/-- What callers tell apart. -/
inductive FailureKind where
  | malformed
  | keysMissing
  | notAuthentic
  | contextFailed
  deriving DecidableEq, Repr

namespace FailureKind

def message : FailureKind → String
  | malformed => "malformed message"
  | keysMissing => "key material not available"
  | notAuthentic => "message authentication failed"
  | contextFailed => "crypto context failure"

/-- Whether the call is worth repeating when more key material has arrived. -/
def isRecoverable (k : FailureKind) : Bool := k == keysMissing

/-- Whether the failure may be the trace of an attack. -/
def isSecurityCritical (k : FailureKind) : Bool := k == notAuthentic

end FailureKind

/-! ## Setting up -/

/-- Why a channel is not set up. -/
inductive SetupError where
  /-- The context of this name does not produce tags of one size. -/
  | notAuthenticating (name : String)
  /-- The association of the channel with this id is not made. -/
  | association (channel : UInt16) (cause : Context.CreationError)
  deriving DecidableEq

def SetupError.kind (_ : SetupError) : FailureKind := .contextFailed

def SetupError.log : SetupError → List LogLine
  | notAuthenticating name => [.error s!"{name} cannot be used for authentication"]
  | association channel cause => [.error s!"setting up channel {channel} failed: {cause.message}"]

/-! ## Encoding and decoding -/

/-- Why a message is not encoded or not decoded. -/
inductive Failure where
  /-- Channel 0 sends nothing. -/
  | reservedChannel
  | payloadTooLarge
  | messageIdsExhausted
  /-- The length of the encoded message does not fit the header. -/
  | lengthOverflow
  /-- The header does not fit the message or the channel. -/
  | badHeader
  | notDecompressed
  /-- The compressor failed, for the reason it gives. -/
  | notCompressed (cause : String)
  /-- No copy of a context was made. -/
  | noCopy (cause : Context.CloneError)
  | context (cause : Context.Error)
  /-- The tag has another size than was announced. -/
  | tagSize
  | outgoingKeysMissing (channel : UInt16) (messageId : UInt32)
  | incomingKeysMissing (channel : UInt16) (messageId : UInt32)
  | key (cause : KeyError)
  /-- An encrypted message arrives where nothing can be decrypted. -/
  | noDecryption (channel : UInt16) (messageId : UInt32)
  | notAuthentic (channel : UInt16) (messageId authenticationKeyId encryptionKeyId : UInt32)
  deriving DecidableEq

namespace Failure

def kind : Failure → FailureKind
  | reservedChannel => .malformed
  | payloadTooLarge => .malformed
  | messageIdsExhausted => .malformed
  | lengthOverflow => .malformed
  | badHeader => .malformed
  | notDecompressed => .malformed
  | notCompressed _ => .contextFailed
  | noCopy _ => .contextFailed
  | context _ => .contextFailed
  | tagSize => .contextFailed
  | outgoingKeysMissing _ _ => .keysMissing
  | incomingKeysMissing _ _ => .keysMissing
  | key _ => .keysMissing
  | noDecryption _ _ => .contextFailed
  | notAuthentic _ _ _ _ => .notAuthentic

/-- The precondition that did not hold, for the failures that are the library's own fault. -/
def fault? : Failure → Option Fault
  | context (.broken fault) => some fault
  | _ => none

/-- The report of a refusal by a context. -/
def contextLog (e : Context.Error) : LogLine := .error s!"crypto context failed: {e.message}"

/-- The lines that go to the log. -/
def log : Failure → List LogLine
  | reservedChannel => [.warning "refusing to encode on channel 0"]
  | notCompressed cause => [.error s!"compression failed: {cause}"]
  | noCopy cause => cause.log ++ [contextLog cause.toError]
  | context cause => [contextLog cause]
  | outgoingKeysMissing channel messageId =>
    [.warning s!"channel {channel}: not enough key material to send message {messageId}"]
  | incomingKeysMissing channel messageId =>
    [.warning s!"channel {channel}: key material for message {messageId} not available"]
  | noDecryption channel messageId =>
    [.error (s!"channel {channel}: message {messageId} is encrypted but no decryption is " ++
      "configured")]
  | notAuthentic channel messageId authenticationKeyId encryptionKeyId =>
    [.warning (s!"channel {channel}: authentication of message {messageId} failed " ++
      s!"(authentication key id {authenticationKeyId}, encryption key id {encryptionKeyId})")]
  | _ => []

end Failure

end OneTimeChannel.Channel

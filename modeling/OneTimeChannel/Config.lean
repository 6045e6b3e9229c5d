/-
  Configurations of a tunnel.

  A configuration names the channel and the four schemes of its association, says whether outgoing
  messages are encrypted, and from which length on payloads are compressed.  It is kept as a TOML
  document; unknown fields are ignored, and only the channel id and the association are required.

  Reading takes any configuration of the right form.  Whether a channel can be set up from it is
  what `validate` finds out.

  Core only.
-/
import OneTimeChannel.Association.KeyPlan
import OneTimeChannel.Channel.Basic
import OneTimeChannel.Toml.Writer

namespace OneTimeChannel

/-- The configuration of one end of a tunnel. -/
structure TunnelConfig where
  /-- The id of the channel, which must not be 0. -/
  channelId : UInt16
  /-- Payloads above this many bytes are compressed even if they are not encrypted. -/
  compressionThreshold : Nat := defaultCompressionThreshold
  /-- Whether outgoing messages ask for encryption. -/
  encrypt : Bool := false
  association : AssociationDefinition
  /-- The file that the configuration was read from. -/
  path : String := ""
  deriving DecidableEq

namespace TunnelConfig

/-! ## Writing -/

/-- The document of a configuration; a threshold beyond the numbers of TOML has none. -/
def render? (c : TunnelConfig) : Option String := do
  let id ← Toml.numberLine? "channel_id" c.channelId.toNat
  let threshold ← Toml.numberLine? "compression_threshold" c.compressionThreshold
  let schemes := Slot.all.map fun slot => Toml.stringLine slot.key (c.association.get slot)
  return id ++ threshold ++ Toml.booleanLine "encrypt" c.encrypt
    ++ Toml.headerLine "association" ++ String.join schemes

/-! ## Reading -/

/-- Why the bytes of a file are no configuration. -/
inductive LoadError where
  | notText
  | notToml
  deriving DecidableEq, Repr

def LoadError.message : LoadError → String
  | notText => "stream did not contain valid UTF-8"
  | notToml => "TOML parse error"

/-- A whole number from 0 to a limit, which it does not reach. -/
def natural? (limit : Nat) : Toml.Value → Option Nat
  | .integer n => if 0 ≤ n ∧ n < limit then some n.toNat else none
  | _ => none

def text? : Toml.Value → Option String
  | .string text => some text
  | _ => none

def boolean? : Toml.Value → Option Bool
  | .boolean b => some b
  | _ => none

/-- The schemes of an association: the fields of a table, or the first items of an array. -/
def schemes? : Toml.Value → Option AssociationDefinition
  | .table _ fields => Slots.ofFnM fun slot => (Toml.Fields.find? fields slot.key).bind text?
  | .array (a :: b :: c :: d :: _) => do
    return ⟨← text? a, ← text? b, ← text? c, ← text? d⟩
  | _ => none

/-- The value of a field, or the default if there is no such field. -/
def optional? {α : Type} (fields : Toml.Fields) (key : String) (default : α)
    (read : Toml.Value → Option α) : Option α :=
  match fields.find? key with
  | some v => read v
  | none => some default

/-- The configuration in the fields of a document. -/
def ofFields? (fields : Toml.Fields) : Option TunnelConfig := do
  let channelId ← (← fields.find? "channel_id") |> natural? UInt16.size
  let compressionThreshold ←
    optional? fields "compression_threshold" defaultCompressionThreshold (natural? UInt64.size)
  let encrypt ← optional? fields "encrypt" false boolean?
  let association ← (← fields.find? "association") |> schemes?
  return { channelId := UInt16.ofNat channelId, compressionThreshold, encrypt, association }

/-- The configuration in a document. -/
def parse? (text : String) : Option TunnelConfig := (Toml.parse? text).bind ofFields?

/-- The configuration in the bytes of a file. -/
def ofBytes (path : String) (bytes : Bytes) : Except LoadError TunnelConfig :=
  match Utf8.decode bytes with
  | .error _ => .error .notText
  | .ok text =>
    match parse? text with
    | some c => .ok { c with path }
    | none => .error .notToml

/-! ## Checks -/

/-- Why a configuration describes no channel. -/
inductive Flaw where
  | reservedChannel
  | invalidScheme (cause : Context.CreationError)
  /-- The context does not produce tags of one size. -/
  | notAuthenticating (slot : Slot) (name : String)
  deriving DecidableEq

/-- The flaw and what caused it. -/
def Flaw.causes : Flaw → List String
  | reservedChannel => ["channel id 0 is reserved"]
  | invalidScheme cause => "the association contains an invalid scheme" :: cause.causes
  | notAuthenticating slot name => [s!"{slot.name}: {name} cannot be used for authentication"]

/-- The first place for authentication whose context uses up a key byte for each byte of data. -/
def unfitSlot? (a : Association) : Option Slot :=
  [Slot.authenticationIncoming, Slot.authenticationOutgoing].find? fun slot =>
    (a.get slot).consumesKeyPerByte

/-- The association of a configuration from which a channel can be set up. -/
def validate (c : TunnelConfig) : Except Flaw Association :=
  if c.channelId = 0 then .error .reservedChannel
  else match Association.ofDefinition c.association with
    | .error cause => .error (.invalidScheme cause)
    | .ok a =>
      match unfitSlot? a with
      | some slot => .error (.notAuthenticating slot (a.get slot).name)
      | none => .ok a

/-- What the check of a configuration reports beside its result. -/
def warnings (c : TunnelConfig) : List LogLine :=
  match c.validate with
  | .error _ => []
  | .ok a =>
    if c.encrypt && a.encryptionOutgoing.isNull then
      [.warning "encryption is requested but encryption_outgoing is null"]
    else []

/-- The key bytes of a round. -/
def keyPlan (c : TunnelConfig) : Except Flaw KeyPlan :=
  match KeyPlan.ofDefinition c.association with
  | .ok plan => .ok plan
  | .error cause => .error (.invalidScheme cause)

/-- The channel that a configuration describes. -/
def toChannel {K : Type} (c : TunnelConfig) (keys : K) : Except Flaw (Channel K) :=
  match c.validate with
  | .error flaw => .error flaw
  | .ok association =>
    .ok { id := c.channelId, association, keys, compressionThreshold := c.compressionThreshold }

/-! ## A first configuration -/

/-- A configuration to start from: hashes of 96 bits under the two init keys, and encryption. -/
def start (incomingKey outgoingKey : Key) : TunnelConfig where
  channelId := 1
  encrypt := true
  association := {
    authenticationIncoming := "evhash-96:" ++ Hex.encode incomingKey.bytes
    authenticationOutgoing := "evhash-96:" ++ Hex.encode outgoingKey.bytes
    encryptionIncoming := "xor"
    encryptionOutgoing := "xor" }

end TunnelConfig

end OneTimeChannel

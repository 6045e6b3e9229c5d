/-
  How much key material an association needs.

  One round is an authenticated and encrypted message in each direction.  Some contexts need a
  fixed number of key bytes for a message, others one key byte for each byte of the payload; an init
  key counts where it does not serve for many messages.

  Core only.
-/
import OneTimeChannel.Association.Basic

namespace OneTimeChannel

/-- The key bytes of one round. -/
structure KeyPlan where
  /-- Fixed number of bytes for the incoming message. -/
  incoming : Nat := 0
  /-- Fixed number of bytes for the outgoing message. -/
  outgoing : Nat := 0
  /-- Incoming contexts that use up a key byte for each byte of the payload. -/
  incomingPerByte : Nat := 0
  /-- Outgoing contexts that do. -/
  outgoingPerByte : Nat := 0
  deriving DecidableEq, Repr

namespace KeyPlan

/-- The bytes of a round with payloads of the given length in both directions. -/
def bytesFor (p : KeyPlan) (payload : Nat) : Nat :=
  p.incoming + p.outgoing + (p.incomingPerByte + p.outgoingPerByte) * payload

/-- The fixed share of a context. -/
def fixedShare (c : Context) : Nat :=
  (if c.reusesInitKey then 0 else c.initKeySize)
    + (if c.consumesKeyPerByte then 0 else c.finalKeySize)

/-- The share of a context for each byte. -/
def perByteShare (c : Context) : Nat := if c.consumesKeyPerByte then 1 else 0

/-- The plan of four contexts. -/
def ofAssociation (a : Association) : KeyPlan where
  incoming := fixedShare a.authenticationIncoming + fixedShare a.encryptionIncoming
  outgoing := fixedShare a.authenticationOutgoing + fixedShare a.encryptionOutgoing
  incomingPerByte := perByteShare a.authenticationIncoming + perByteShare a.encryptionIncoming
  outgoingPerByte := perByteShare a.authenticationOutgoing + perByteShare a.encryptionOutgoing

/-- The plan of a definition. -/
def ofDefinition (d : AssociationDefinition) : Except Context.CreationError KeyPlan :=
  (Association.ofDefinition d).map ofAssociation

end KeyPlan

end OneTimeChannel

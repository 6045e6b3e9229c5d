/-
  The four places of an association.

  A channel authenticates and encrypts, in each direction with a context of its own.  `Slots α`
  holds one value for each of the four places; an association is four contexts, its definition four
  schemes.  Wherever the places are visited, it is in the order in which they are listed here.

  Core only.
-/

namespace OneTimeChannel

/-- A place of an association. -/
inductive Slot where
  | authenticationIncoming
  | authenticationOutgoing
  | encryptionIncoming
  | encryptionOutgoing
  deriving DecidableEq, Repr

namespace Slot

def all : List Slot :=
  [authenticationIncoming, authenticationOutgoing, encryptionIncoming, encryptionOutgoing]

def name : Slot → String
  | authenticationIncoming => "AuthenticationIncoming"
  | authenticationOutgoing => "AuthenticationOutgoing"
  | encryptionIncoming => "EncryptionIncoming"
  | encryptionOutgoing => "EncryptionOutgoing"

/-- The name of the place in configurations. -/
def key : Slot → String
  | authenticationIncoming => "authentication_incoming"
  | authenticationOutgoing => "authentication_outgoing"
  | encryptionIncoming => "encryption_incoming"
  | encryptionOutgoing => "encryption_outgoing"

/-- The place of the peer that a place talks to. -/
def opposite : Slot → Slot
  | authenticationIncoming => authenticationOutgoing
  | authenticationOutgoing => authenticationIncoming
  | encryptionIncoming => encryptionOutgoing
  | encryptionOutgoing => encryptionIncoming

def isIncoming : Slot → Bool
  | authenticationIncoming => true
  | authenticationOutgoing => false
  | encryptionIncoming => true
  | encryptionOutgoing => false

end Slot

/-- One value for each place. -/
@[ext] structure Slots (α : Type) where
  authenticationIncoming : α
  authenticationOutgoing : α
  encryptionIncoming : α
  encryptionOutgoing : α
  deriving DecidableEq, Repr

namespace Slots

variable {α β : Type}

/-- The value of each place. -/
def ofFn (f : Slot → α) : Slots α where
  authenticationIncoming := f .authenticationIncoming
  authenticationOutgoing := f .authenticationOutgoing
  encryptionIncoming := f .encryptionIncoming
  encryptionOutgoing := f .encryptionOutgoing

/-- The values of the places, made one after the other. -/
def ofFnM {m : Type → Type} [Monad m] (f : Slot → m α) : m (Slots α) := do
  let authenticationIncoming ← f .authenticationIncoming
  let authenticationOutgoing ← f .authenticationOutgoing
  let encryptionIncoming ← f .encryptionIncoming
  let encryptionOutgoing ← f .encryptionOutgoing
  return { authenticationIncoming, authenticationOutgoing, encryptionIncoming, encryptionOutgoing }

/-- The same value everywhere. -/
def replicate (a : α) : Slots α := ofFn fun _ => a

def get (s : Slots α) : Slot → α
  | .authenticationIncoming => s.authenticationIncoming
  | .authenticationOutgoing => s.authenticationOutgoing
  | .encryptionIncoming => s.encryptionIncoming
  | .encryptionOutgoing => s.encryptionOutgoing

def set (s : Slots α) (slot : Slot) (a : α) : Slots α :=
  match slot with
  | .authenticationIncoming => { s with authenticationIncoming := a }
  | .authenticationOutgoing => { s with authenticationOutgoing := a }
  | .encryptionIncoming => { s with encryptionIncoming := a }
  | .encryptionOutgoing => { s with encryptionOutgoing := a }

def map (f : α → β) (s : Slots α) : Slots β := ofFn fun slot => f (s.get slot)

def toList (s : Slots α) : List α := Slot.all.map s.get

/-- The values as the peer has them: incoming and outgoing change places. -/
def mirrored (s : Slots α) : Slots α := ofFn fun slot => s.get slot.opposite

@[simp] theorem get_ofFn (f : Slot → α) (slot : Slot) : (ofFn f).get slot = f slot := by
  cases slot <;> rfl

@[simp] theorem ofFn_get (s : Slots α) : ofFn s.get = s := rfl

@[simp] theorem get_set (s : Slots α) (slot other : Slot) (a : α) :
    (s.set slot a).get other = if other = slot then a else s.get other := by
  cases slot <;> cases other <;> rfl

@[simp] theorem get_map (f : α → β) (s : Slots α) (slot : Slot) :
    (s.map f).get slot = f (s.get slot) := get_ofFn _ _

@[simp] theorem get_mirrored (s : Slots α) (slot : Slot) :
    s.mirrored.get slot = s.get slot.opposite := get_ofFn _ _

/-- The peer of the peer sees what we see. -/
@[simp] theorem mirrored_mirrored (s : Slots α) : s.mirrored.mirrored = s := rfl

end Slots

end OneTimeChannel

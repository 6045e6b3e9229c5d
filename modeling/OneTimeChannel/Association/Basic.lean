/-
  Associations: the four contexts of a channel.

  A definition gives their schemes, and an association can be turned back into a definition that
  includes what its contexts have taken in.  Stored, an association is the four schemes as
  length-prefixed records, one after the other; loading reads as many bytes as it needs and no more.

  Core only.
-/
import OneTimeChannel.Association.Slots
import OneTimeChannel.Cipher.Context
import OneTimeChannel.Record.Encoder
import OneTimeChannel.Text.Utf8

namespace OneTimeChannel

/-- The schemes of four contexts. -/
abbrev AssociationDefinition := Slots String

/-- Four contexts. -/
abbrev Association := Slots Context

namespace AssociationDefinition

/-- No authentication and no encryption. -/
def null : AssociationDefinition := .replicate "null"

/-- The definition with nothing but names, since what follows them is secret. -/
def description (d : AssociationDefinition) : String :=
  let field (slot : Slot) : String :=
    let head := String.ofList (Text.beforeFirst ':' (d.get slot).toList)
    s!"{slot.key}: {Text.quoted head}"
  let fields := ", ".intercalate (Slot.all.map field)
  s!"AssociationDefinition \x7b {fields} \x7d"

end AssociationDefinition

namespace Association

/-- The contexts that a definition describes; the first scheme that is refused decides. -/
def ofDefinition (d : AssociationDefinition) : Except Context.CreationError Association :=
  Slots.ofFnM fun slot => Context.create (d.get slot)

/-- The schemes of the contexts as they are now. -/
def definition (a : Association) : AssociationDefinition := a.map fun c => c.scheme.render

/-! ## Storing -/

/-- The context that could not be written, and why. -/
structure StoreError where
  slot : Slot
  cause : StreamError
  deriving DecidableEq, Repr

def StoreError.causes (e : StoreError) : List String :=
  [s!"writing the {e.slot.name} context", e.cause.message]

/-- Writes the records of the given places. -/
def storeSlots (a : Association) : List Slot → Writer → Except StoreError Unit × Writer
  | [], w => (.ok (), w)
  | slot :: rest, w =>
    let record : RecordEncoder := { body := Utf8.encode (a.get slot).scheme.render }
    match record.writeAll w with
    | (.ok _, _, w') => storeSlots a rest w'
    | (.error cause, _, w') => (.error ⟨slot, cause⟩, w')

/-- Writes the schemes of all contexts. -/
def store (a : Association) (w : Writer) : Except StoreError Unit × Writer :=
  storeSlots a Slot.all w

/-! ## Loading -/

/-- The longest scheme that is read back. -/
def maxStoredScheme : Nat := 1024

/-- Why no association was read. -/
inductive LoadError where
  | reading (slot : Slot) (cause : RecordError)
  | notText (cause : Utf8.Error)
  | restoring (slot : Slot) (cause : Context.CreationError)
  deriving DecidableEq

def LoadError.causes : LoadError → List String
  | reading slot cause => [s!"reading the {slot.name} context", cause.message, cause.cause]
  | notText cause => ["stored scheme is not UTF-8", cause.message]
  | restoring slot cause => s!"restoring the {slot.name} context" :: cause.causes

/-- Reads one record and makes the context it describes. -/
def loadContext (slot : Slot) : StateT Reader (Except LoadError) Context := fun r =>
  match (RecordDecoder.ofBuffer (List.replicate maxStoredScheme 0)).readAll r with
  | (.error cause, _, _) => .error (.reading slot cause)
  | (.ok record, _, r') =>
    match Utf8.decode record with
    | .error cause => .error (.notText cause)
    | .ok text =>
      match Context.create text with
      | .error cause => .error (.restoring slot cause)
      | .ok c => .ok (c, r')

/-- Reads the contexts that `store` wrote, and what is left of the stream. -/
def load (r : Reader) : Except LoadError (Association × Reader) :=
  (Slots.ofFnM loadContext : StateT Reader (Except LoadError) Association) r

end Association

end OneTimeChannel

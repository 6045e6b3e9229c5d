/-
  Schemes: the text that describes a crypto context.

    NAME ['-' VARIANT] [':' INIT-KEY [':' STATE [':' BLOCKS]]]

  The name is made of ASCII letters, digits and underscores and is kept in lower case; init key and
  state are hexadecimal; variant and blocks are decimal and fit 32 and 64 bits.  White space around
  the whole is ignored.  A field that is left out is empty or zero, and writing leaves out the
  fields at the end that are.

  An error repeats the text up to the first colon only, since what follows is secret.

  Core only.
-/
import OneTimeChannel.Key
import OneTimeChannel.Text.Blank
import OneTimeChannel.Text.Decimal
import OneTimeChannel.Text.Fields

namespace OneTimeChannel

/-- The description of a crypto context. -/
structure Scheme where
  /-- The name of the algorithm, in lower case. -/
  algorithm : String
  variant : Option UInt32 := none
  initKey : Key := .empty
  /-- What the context holds of the data it has taken in. -/
  state : Bytes := []
  /-- How many blocks the context has taken in. -/
  blocks : UInt64 := 0
  deriving DecidableEq

namespace Scheme

/-- The scheme of an algorithm without any field. -/
def named (algorithm : String) : Scheme where
  algorithm := String.ofList (algorithm.toList.map Char.toLower)

/-! ## Errors -/

/-- What is wrong with the text of a scheme. -/
inductive Flaw where
  | tooManyFields
  | variant
  | name
  | initKey
  | state
  | blocks
  /-- Fields where a name alone is asked for. -/
  | fieldsInName
  deriving DecidableEq, Repr

def Flaw.message : Flaw → String
  | tooManyFields => "too many fields"
  | variant => "variant is not a decimal number"
  | name => "malformed algorithm name"
  | initKey => "init key is not valid hex"
  | state => "state is not valid hex"
  | blocks => "blocks is not a decimal number"
  | fieldsInName => "algorithm name must not carry fields"

/-- A text that is no scheme. -/
structure Error where
  /-- The text up to the first colon. -/
  head : String
  flaw : Flaw
  deriving DecidableEq

namespace Error

/-- The error for a whole text. -/
def ofText (text : String) (flaw : Flaw) : Error where
  head := String.ofList (Text.beforeFirst ':' text.toList)
  flaw := flaw

def message (e : Error) : String := s!"invalid scheme {Text.quoted e.head}: {e.flaw.message}"

end Error

/-! ## Writing -/

/-- The algorithm and its variant. -/
def nameChars (s : Scheme) : List Char :=
  match s.variant with
  | some v => s.algorithm.toList ++ '-' :: Decimal.digits v.toNat
  | none => s.algorithm.toList

def name (s : Scheme) : String := String.ofList s.nameChars

/-- The whole scheme; fields are written up to the last one that is not empty. -/
def chars (s : Scheme) : List Char :=
  let withBlocks := s.blocks ≠ 0
  let withState := withBlocks ∨ s.state ≠ []
  let withKey := withState ∨ s.initKey.bytes ≠ []
  s.nameChars
    ++ (if withKey then ':' :: Hex.encodeChars s.initKey.bytes else [])
    ++ (if withState then ':' :: Hex.encodeChars s.state else [])
    ++ (if withBlocks then ':' :: Decimal.digits s.blocks.toNat else [])

def render (s : Scheme) : String := String.ofList s.chars

instance : ToString Scheme where
  toString := render

/-! ## Reading -/

def isNameChar (c : Char) : Bool := c.isAlphanum || c == '_'

/-- The name and the variant from the first field.  The variant is looked at first. -/
def parseName (field : List Char) : Except Flaw (String × Option UInt32) := do
  let (name, variant) ← match Text.splitOnce? '-' field with
    | none => pure (field, none)
    | some (name, number) =>
      match Decimal.parse? UInt32.size number with
      | some v => pure (name, some (UInt32.ofNat v))
      | none => throw .variant
  if name ≠ [] ∧ name.all isNameChar then
    return (String.ofList (name.map Char.toLower), variant)
  else throw .name

/-- A field of hexadecimal digits; a missing field is empty. -/
def parseHex (flaw : Flaw) : Option (List Char) → Except Flaw Bytes
  | none => .ok []
  | some field =>
    match Hex.decodeChars field with
    | .ok bs => .ok bs
    | .error _ => .error flaw

/-- The block count; a missing field is zero. -/
def parseBlocks : Option (List Char) → Except Flaw UInt64
  | none => .ok 0
  | some field =>
    match Decimal.parse? UInt64.size field with
    | some n => .ok (UInt64.ofNat n)
    | none => .error .blocks

/-- The scheme of a text without the white space around it. -/
def parseChars (cs : List Char) : Except Flaw Scheme := do
  let fields := Text.split ':' cs
  if fields.length > 4 then throw .tooManyFields
  let (algorithm, variant) ← parseName (fields.headD [])
  let initKey ← parseHex .initKey fields[1]?
  let state ← parseHex .state fields[2]?
  let blocks ← parseBlocks fields[3]?
  return { algorithm, variant, initKey := ⟨initKey⟩, state, blocks }

/-- The scheme that a text describes. -/
def parse (text : String) : Except Error Scheme :=
  match parseChars (Text.trimmed text.toList) with
  | .ok s => .ok s
  | .error flaw => .error (.ofText text flaw)

end Scheme

end OneTimeChannel

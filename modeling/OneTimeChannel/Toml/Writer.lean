/-
  Writing TOML documents.

  A string is written over several lines if it has line breaks.  It is written as it is, between
  apostrophes, if that spares the escaping of a backslash and nothing in it stands in the way:
  control characters, three apostrophes in a row, or an apostrophe at the end.  Otherwise it stands
  in double quotes, with escapes.

  Core only.
-/
import OneTimeChannel.Text.Decimal
import OneTimeChannel.Toml.Reader

namespace OneTimeChannel.Toml

open Text (apostrophe backslash quoteMark)

/-! ## Strings -/

/-- A character of a string in double quotes.  Line breaks stay as they are in a long string. -/
def escapedChar (long : Bool) (c : Char) : List Char :=
  if c = '\n' ∧ long then [c]
  else if c = '\x08' then [backslash, 'b']
  else if c = '\t' then [backslash, 't']
  else if c = '\n' then [backslash, 'n']
  else if c = '\x0c' then [backslash, 'f']
  else if c = '\r' then [backslash, 'r']
  else if c = quoteMark ∨ c = backslash then [backslash, c]
  else if isControl c then
    let digits := (Text.hexDigits c.toNat).map Char.toUpper
    [backslash, 'u'] ++ List.replicate (4 - digits.length) '0' ++ digits
  else [c]

/-- Whether three apostrophes stand in a row. -/
def hasLongMark : List Char → Bool
  | '\x27' :: '\x27' :: '\x27' :: _ => true
  | _ :: cs => hasLongMark cs
  | [] => false

/-- Whether a string is written as it is. -/
def isLiteral (cs : List Char) : Bool :=
  cs.contains backslash && !(cs.any fun c => isControl c && c != '\n') && !hasLongMark cs
    && cs.getLast? != some apostrophe

/-- A string between marks, which are tripled for a long one. -/
def marked (mark : Char) (triple long : Bool) (body : List Char) : List Char :=
  let marks := List.replicate (if triple then 3 else 1) mark
  marks ++ (if long then ['\n'] else []) ++ body ++ marks

/-- A string. -/
def stringChars (cs : List Char) : List Char :=
  let long := cs.contains '\n'
  if isLiteral cs then marked apostrophe (long || cs.contains apostrophe) long cs
  else marked quoteMark long long (cs.flatMap (escapedChar long))

/-! ## Fields -/

/-- A field on a line of its own. -/
def fieldLine (key : String) (value : List Char) : String :=
  key ++ " = " ++ String.ofList value ++ "\n"

/-- The line of a field that is a string. -/
def stringLine (key text : String) : String := fieldLine key (stringChars text.toList)

/-- The line of a field that is a number, which may have no more than 63 bits. -/
def numberLine? (key : String) (n : Nat) : Option String :=
  if n < signedBound then some (fieldLine key (Decimal.digits n)) else none

/-- The line of a field that is true or false. -/
def booleanLine (key : String) (b : Bool) : String :=
  fieldLine key (if b then "true" else "false").toList

/-- The header of a table, after a blank line. -/
def headerLine (name : String) : String := "\n[" ++ name ++ "]\n"

end OneTimeChannel.Toml

/-
  Key material.

  A `Key` is a byte string that must not show up in messages: its description gives the length
  only.

  Core only.
-/
import OneTimeChannel.Text.Quoted

namespace OneTimeChannel

/-- Secret bytes. -/
structure Key where
  bytes : Bytes
  deriving DecidableEq

namespace Key

def empty : Key := ⟨[]⟩

def length (k : Key) : Nat := k.bytes.length

def isEmpty (k : Key) : Bool := k.bytes.isEmpty

def ofHex (s : String) : Except Hex.DecodeError Key := (Hex.decode s).map Key.mk

/-- What may be said about a key in public. -/
def description (k : Key) : String := s!"Key(<{k.length} bytes>)"

end Key

/-- The text of a refused hexadecimal string. -/
def Hex.DecodeError.message : Hex.DecodeError → String
  | .oddLength => "Odd number of digits"
  | .notDigit c position => s!"Invalid character {Text.quotedChar c} at position {position}"

end OneTimeChannel

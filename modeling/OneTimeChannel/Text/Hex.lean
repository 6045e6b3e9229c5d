/-
  Hexadecimal text: two digits per byte, high digit first.

  Writing uses lower case.  Reading accepts both cases and refuses a text of odd length before it
  looks at any digit; otherwise it names the first character that is no digit and its position.

  Core only.
-/
import OneTimeChannel.Bytes

namespace OneTimeChannel.Hex

/-- Why a text is not hexadecimal. -/
inductive DecodeError where
  | oddLength
  /-- The character at this position is no digit. -/
  | notDigit (c : Char) (position : Nat)
  deriving DecidableEq, Repr

/-! ## Digits -/

/-- The digit of a number below sixteen. -/
def digit (n : Nat) : Char :=
  if n < 10 then Char.ofNat ('0'.toNat + n) else Char.ofNat ('a'.toNat + (n - 10))

/-- The value of a digit of either case. -/
def digitValue? (c : Char) : Option Nat :=
  if '0' ≤ c ∧ c ≤ '9' then some (c.toNat - '0'.toNat)
  else if 'a' ≤ c ∧ c ≤ 'f' then some (c.toNat - 'a'.toNat + 10)
  else if 'A' ≤ c ∧ c ≤ 'F' then some (c.toNat - 'A'.toNat + 10)
  else none

/-! ## Byte strings -/

/-- The two digits of each byte. -/
def encodeChars (bs : Bytes) : List Char :=
  bs.flatMap fun b => [digit (b.toNat / 16), digit (b.toNat % 16)]

def encode (bs : Bytes) : String := String.ofList (encodeChars bs)

/-- Reads digits in pairs; `position` is the number of characters already read. -/
def decodePairs (position : Nat) : List Char → Except DecodeError Bytes
  | high :: low :: rest =>
    match digitValue? high with
    | none => .error (.notDigit high position)
    | some h =>
      match digitValue? low with
      | none => .error (.notDigit low (position + 1))
      | some l =>
        match decodePairs (position + 2) rest with
        | .ok bs => .ok (UInt8.ofNat (16 * h + l) :: bs)
        | .error e => .error e
  | _ => .ok []

/-- The bytes that a sequence of digits stands for. -/
def decodeChars (cs : List Char) : Except DecodeError Bytes :=
  if cs.length % 2 = 1 then .error .oddLength else decodePairs 0 cs

/-- The bytes that a text stands for; a character beyond ASCII counts as the bytes of its UTF-8
    form. -/
def decode (s : String) : Except DecodeError Bytes :=
  decodeChars (s.toUTF8.toList.map fun b => Char.ofNat b.toNat)

end OneTimeChannel.Hex

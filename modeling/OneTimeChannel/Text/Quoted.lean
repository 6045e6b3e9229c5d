/-
  Quoted text, as it stands in messages and in descriptions of values.

  A quoted string is surrounded by `"`, a quoted character by an apostrophe.  Inside, the backslash
  and the surrounding mark are escaped with a backslash, the four common control characters have
  letters (`\0`, `\t`, `\n`, `\r`), and every other character without a visible form is written by
  its number, as `\u` and the hexadecimal digits in braces.  All else stands for itself.

  Core only.
-/
import OneTimeChannel.Text.Hex
import OneTimeChannel.Text.Invisible

namespace OneTimeChannel.Text

def backslash : Char := '\x5c'

def quoteMark : Char := '\x22'

def apostrophe : Char := '\x27'

/-- The hexadecimal digits of a number, without leading zeros. -/
def hexDigits (n : Nat) : List Char :=
  if n < 16 then [Hex.digit n] else hexDigits (n / 16) ++ [Hex.digit (n % 16)]

/-- A character inside the marks `mark`. -/
def escaped (mark c : Char) : List Char :=
  if c = '\x00' then [backslash, '0']
  else if c = '\t' then [backslash, 't']
  else if c = '\n' then [backslash, 'n']
  else if c = '\r' then [backslash, 'r']
  else if c = backslash ∨ c = mark then [backslash, c]
  else if isInvisible c then [backslash, 'u', '\x7b'] ++ hexDigits c.toNat ++ ['\x7d']
  else [c]

/-- A string in double quotes. -/
def quoted (s : String) : String :=
  String.ofList (quoteMark :: s.toList.flatMap (escaped quoteMark) ++ [quoteMark])

/-- A character in apostrophes. -/
def quotedChar (c : Char) : String :=
  String.ofList (apostrophe :: escaped apostrophe c ++ [apostrophe])

end OneTimeChannel.Text

/-
  Numbers, words and dates in TOML documents.

  A number or a word is a run of characters that stands for one value as a whole.  A date may
  contain a colon and a blank, so it is looked for first, and returns the text behind it.

  Core only.
-/
import OneTimeChannel.Text.Fields
import OneTimeChannel.Text.Hex
import OneTimeChannel.Toml.Value

namespace OneTimeChannel.Toml

/-- A character of a number or of a word such as `true`. -/
def isTokenChar (c : Char) : Bool := c.isAlphanum || c == '+' || c == '-' || c == '_' || c == '.'

/-! ## Whole numbers -/

/-- The digits of a number in which single underscores may stand between digits. -/
def digits? (isDigit : Char → Bool) (cs : List Char) : Option (List Char) :=
  let groups := Text.split '_' cs
  if groups.all fun group => !group.isEmpty && group.all isDigit then some groups.flatten else none

/-- The digits of a decimal number, which has no leading zeros. -/
def decimalDigits? (cs : List Char) : Option (List Char) :=
  match cs with
  | '0' :: _ :: _ => none
  | _ => digits? Char.isDigit cs

/-- The sign in front, and the text behind it. -/
def sign (cs : List Char) : Bool × List Char :=
  match cs with
  | '-' :: rest => (true, rest)
  | '+' :: rest => (false, rest)
  | _ => (false, cs)

/-- The value of digits in a base, or some number above `cap` if it is larger. -/
def valueUpTo (cap base : Nat) (cs : List Char) : Nat :=
  cs.foldl (fun n c => if cap < n then n else base * n + (Hex.digitValue? c).getD 0) 0

/-- Numbers of 64 bits with a sign lie below this, and not below its negative. -/
def signedBound : Nat := 1 <<< 63

/-- A number of 64 bits with a sign. -/
def bounded? (n : Int) : Option Int :=
  if -(signedBound : Int) ≤ n ∧ n < signedBound then some n else none

/-- A whole number in one of the four bases. -/
def integer? (cs : List Char) : Option Int :=
  let based (base : Nat) (rest : List Char) : Option Int :=
    let isDigit (c : Char) : Bool := (Hex.digitValue? c).any (· < base)
    (digits? isDigit rest).bind fun ds => bounded? (valueUpTo signedBound base ds)
  match cs with
  | '0' :: 'x' :: rest => based 16 rest
  | '0' :: 'o' :: rest => based 8 rest
  | '0' :: 'b' :: rest => based 2 rest
  | _ =>
    let (negative, unsigned) := sign cs
    (decimalDigits? unsigned).bind fun ds =>
      let n : Int := valueUpTo signedBound 10 ds
      bounded? (if negative then -n else n)

/-! ## Numbers with a fraction or an exponent -/

/-- A decimal number: digits without leading zeros, and the power of ten to multiply them by. -/
structure Scaled where
  negative : Bool
  digits : List Char
  exponent : Int
  deriving DecidableEq, Repr

namespace Scaled

/-- The least number that is nearer to infinity than to any number of 64 bits. -/
def overflow : Nat := (1 <<< 1024) - (1 <<< 970)

/-- How many digits `overflow` has. -/
def overflowLength : Nat := 309

/-- Whether the size of a number is at least `overflow`.  The number of digits before the point
    decides, unless it is that of `overflow`; then these digits decide. -/
def isLarge (x : Scaled) : Bool :=
  let wholeLength : Int := x.digits.length + x.exponent
  if x.digits.isEmpty then false
  else if wholeLength ≠ overflowLength then overflowLength < wholeLength
  else
    let whole := (x.digits ++ List.replicate overflowLength '0').take overflowLength
    overflow ≤ valueUpTo overflow 10 whole

/-- The parts of a number in decimal notation, which has a fraction or an exponent or both. -/
def ofChars? (cs : List Char) : Option Scaled := do
  let (negative, unsigned) := sign cs
  let (number, exponent) := unsigned.span fun c => c != 'e' && c != 'E'
  let (whole, fraction) := number.span (· != '.')
  if exponent.isEmpty && fraction.isEmpty then none
  else
    let wholeDigits ← decimalDigits? whole
    let digitsBehind (mark rest : List Char) : Option (List Char) :=
      if mark.isEmpty then some [] else digits? Char.isDigit rest
    let fractionDigits ← digitsBehind fraction (fraction.drop 1)
    let (down, unsignedExponent) := sign (exponent.drop 1)
    let exponentDigits ← digitsBehind exponent unsignedExponent
    let shift : Int := valueUpTo signedBound 10 exponentDigits
    return {
      negative
      digits := (wholeDigits ++ fractionDigits).dropWhile (· == '0')
      exponent := (if down then -shift else shift) - fractionDigits.length }

end Scaled

/-- Whether a text is a number with a fraction or an exponent that is not too large, or one of the
    words for numbers that are none.  There is no bound below. -/
def isFloat (cs : List Char) : Bool :=
  let unsigned := (sign cs).2
  unsigned == "inf".toList || unsigned == "nan".toList
    || (Scaled.ofChars? cs).any fun x => x.negative || !x.isLarge

/-- The value that a number or a word stands for. -/
def token? (cs : List Char) : Option Value :=
  if cs = "true".toList then some (.boolean true)
  else if cs = "false".toList then some (.boolean false)
  else if isFloat cs then some (.float (String.ofList cs))
  else (integer? cs).map .integer

/-! ## Dates and times -/

/-- The text behind a character in front. -/
def after? (c : Char) (cs : List Char) : Option (List Char) :=
  match cs with
  | d :: rest => if d = c then some rest else none
  | [] => none

/-- The text behind a number of exactly `count` digits in front, which lies between two bounds. -/
def afterNumber? (count low high : Nat) (cs : List Char) : Option (List Char) :=
  let ds := cs.take count
  let n := valueUpTo high 10 ds
  if ds.length = count && ds.all Char.isDigit && low ≤ n && n ≤ high then some (cs.drop count)
  else none

/-- The text behind a date in front: year, month and day. -/
def afterDate? (cs : List Char) : Option (List Char) := do
  let cs ← (afterNumber? 4 0 9999 cs).bind (after? '-')
  let cs ← (afterNumber? 2 1 12 cs).bind (after? '-')
  afterNumber? 2 1 31 cs

/-- The text behind hours and minutes in front. -/
def afterMinutes? (cs : List Char) : Option (List Char) :=
  ((afterNumber? 2 0 23 cs).bind (after? ':')).bind (afterNumber? 2 0 59)

/-- The text behind a fraction of a second, if there is one. -/
def afterFraction (cs : List Char) : List Char :=
  match cs with
  | '.' :: d :: rest => if d.isDigit then rest.dropWhile Char.isDigit else cs
  | _ => cs

/-- The text behind a time of day in front, which may have a leap second. -/
def afterTime? (cs : List Char) : Option (List Char) :=
  (((afterMinutes? cs).bind (after? ':')).bind (afterNumber? 2 0 60)).map afterFraction

/-- The text behind a distance from universal time, if there is one. -/
def afterOffset (cs : List Char) : List Char :=
  match cs with
  | c :: rest =>
    if c = 'Z' ∨ c = 'z' then rest
    else if c = '+' ∨ c = '-' then (afterMinutes? rest).getD cs
    else cs
  | [] => []

/-- The text behind a time of day that follows a date, if there is one. -/
def afterTimeOfDate (cs : List Char) : List Char :=
  match cs with
  | c :: rest =>
    if c = 'T' ∨ c = 't' ∨ c = ' ' then ((afterTime? rest).map afterOffset).getD cs else cs
  | [] => []

/-- The date or the time of day in front, as it is written, and the text behind it. -/
def moment? (cs : List Char) : Option (String × List Char) :=
  let rest? := match afterDate? cs with
    | some rest => some (afterTimeOfDate rest)
    | none => afterTime? cs
  rest?.map fun rest => (String.ofList (cs.take (cs.length - rest.length)), rest)

end OneTimeChannel.Toml

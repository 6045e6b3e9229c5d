/-
  Decimal numbers.

  A number is written with as few digits as it needs.  It is read from one or more digits, after
  an optional plus sign and with any number of leading zeros, and has to stay below a given limit;
  nothing else may stand beside the digits.

  Core only.
-/

namespace OneTimeChannel.Decimal

def digit (n : Nat) : Char := Char.ofNat ('0'.toNat + n)

def digitValue (c : Char) : Nat := c.toNat - '0'.toNat

/-- The digits of a number, most significant first. -/
def digits (n : Nat) : List Char :=
  if n < 10 then [digit n] else digits (n / 10) ++ [digit (n % 10)]

/-- The value of digits that follow a number `acc`, or `none` at the first other character. -/
def valueFrom? (acc : Nat) : List Char → Option Nat
  | [] => some acc
  | c :: cs => if c.isDigit then valueFrom? (10 * acc + digitValue c) cs else none

/-- The value of one or more digits. -/
def value? : List Char → Option Nat
  | [] => none
  | cs => valueFrom? 0 cs

/-- A number below `limit`, with an optional plus sign. -/
def parse? (limit : Nat) (cs : List Char) : Option Nat :=
  let unsigned := match cs with
    | '+' :: rest => rest
    | _ => cs
  (value? unsigned).filter (· < limit)

end OneTimeChannel.Decimal

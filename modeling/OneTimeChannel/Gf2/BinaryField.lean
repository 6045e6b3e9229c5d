/-
  Arithmetic modulo `f = x ^ n + m`, for `n = 32 * w` and a modulus `m` of 32 bits.

  A product is computed in two steps: the carry-less product of the two polynomials, which has
  twice the width, and one fold of its upper half.  Folding adds, for each coefficient of
  `x ^ (n + j)`, the remainder of that power, and the remainders of `x ^ 0`, …, `x ^ (2 * n - 1)`
  are computed once per field, each from the one before by `timesX`.  A left shift by any number
  of places is the same fold, at most `n` places at a time.

  `BinaryField.powers_eq` keeps the table tied to the modulus, so that two fields with one modulus
  are equal and every statement about a field is a statement about its modulus.

  Core only.
-/
import OneTimeChannel.Gf2.Element

namespace OneTimeChannel.Gf2

variable {w : Nat}

/-! ## Powers of `x` -/

/-- Multiplication by `x`: a shift by one place, and the modulus for the coefficient that leaves. -/
def timesX (modulus : UInt32) (a : Element w) : Element w :=
  (a <<< 1) ^^^ (bif a.msb then Element.ofLowBits modulus else 0)

/-- The elements `a`, `a * x`, `a * x ^ 2`, …, as many as asked for. -/
def timesPowers (modulus : UInt32) : Nat → Element w → List (Element w)
  | 0, _ => []
  | k + 1, a => a :: timesPowers modulus k (timesX modulus a)

@[simp] theorem length_timesPowers (modulus : UInt32) (k : Nat) (a : Element w) :
    (timesPowers modulus k a).length = k := by
  induction k generalizing a with
  | zero => rfl
  | succ k ih => simp [timesPowers, ih]

/-- Polynomials over the two-element field modulo `x ^ (32 * w) + m`, where the coefficients of `m`
    are the bits of `modulus`. -/
structure BinaryField (w : Nat) where
  /-- The terms of the reducing polynomial below its leading one. -/
  modulus : UInt32
  /-- The remainders of `x ^ i` for `i` below twice the width. -/
  powers : Array (Element w)
  /-- The table is the one of the modulus. -/
  powers_eq : powers = (timesPowers modulus (2 * (32 * w)) Element.one).toArray

namespace BinaryField

/-- The field with the given modulus. -/
def ofModulus (modulus : UInt32) : BinaryField w where
  modulus := modulus
  powers := (timesPowers modulus (2 * (32 * w)) Element.one).toArray
  powers_eq := rfl

@[simp] theorem modulus_ofModulus (modulus : UInt32) :
    (ofModulus modulus : BinaryField w).modulus = modulus := rfl

/-- A field is determined by its modulus. -/
theorem eq_ofModulus (f : BinaryField w) : f = ofModulus f.modulus := by
  cases f with
  | mk modulus powers h => subst h; rfl

theorem size_powers (f : BinaryField w) : f.powers.size = 2 * (32 * w) := by
  simp [f.powers_eq]

/-- The remainder of `x ^ i`, for `i` below twice the width. -/
def power? (f : BinaryField w) (i : Nat) : Option (Element w) := f.powers[i]?

/-- The remainder of `x ^ (32 * w + j)`: what a coefficient `j` of the upper half stands for. -/
def highPower (f : BinaryField w) (j : Nat) : Element w := f.powers.getD (32 * w + j) 0

/-! ## Folding -/

/-- The sum of the remainders for the coefficients of `high` below `k`. -/
def foldBelow (f : BinaryField w) (high : Element w) : Nat → Element w
  | 0 => 0
  | k + 1 => f.foldBelow high k ^^^ (bif high.getLsbD k then f.highPower k else 0)

/-- The remainder of `high * x ^ (32 * w)`. -/
def fold (f : BinaryField w) (high : Element w) : Element w := f.foldBelow high (32 * w)

/-- The remainder of a polynomial of twice the width. -/
def reduce (f : BinaryField w) (p : BitVec (32 * w + 32 * w)) : Element w :=
  p.setWidth (32 * w) ^^^ f.fold (p.extractLsb' (32 * w) (32 * w))

/-! ## Products and shifts -/

/-- The carry-less product of `a` with the part of `b` below `x ^ k`. -/
def carrylessBelow {n : Nat} (a b : BitVec n) : Nat → BitVec (n + n)
  | 0 => 0
  | k + 1 => carrylessBelow a b k ^^^ (bif b.getLsbD k then a.setWidth (n + n) <<< k else 0)

/-- The product of two polynomials of degree below `n`. -/
def carrylessProduct {n : Nat} (a b : BitVec n) : BitVec (n + n) := carrylessBelow a b n

/-- The product in the field. -/
def multiply (f : BinaryField w) (a b : Element w) : Element w :=
  f.reduce (carrylessProduct a b)

/-- The product with `x ^ k`, for any `k`: the shift is made in steps of at most the width, since
    that is what one fold can take back. -/
def shiftLeft (f : BinaryField w) (a : Element w) (k : Nat) : Element w :=
  if _h : k = 0 ∨ w = 0 then a
  else
    let step := min k (32 * w)
    f.shiftLeft (f.reduce (a.setWidth (32 * w + 32 * w) <<< step)) (k - step)
termination_by k
decreasing_by omega

end BinaryField

end OneTimeChannel.Gf2

/-
  The five reducing polynomials are irreducible.

  A polynomial `p` of degree `n` over the two-element field is irreducible if `x ^ 2 ^ n = x` modulo `p`
  and if, for each proper divisor `d` of `n`, the difference `x ^ 2 ^ e - x` is invertible modulo `p` for
  some multiple `e` of `d`: an irreducible factor of degree `d` would have to divide that difference.

  Both conditions are computations with binary digits: repeated squaring modulo `p` (`frobenius?`), and
  one product with an inverse that is written down here (`inverses`).  They are done on natural numbers,
  where the digits of a square are those of the number, spread out.
-/
import Mathlib.FieldTheory.Finite.Extension
import OneTimeChannel.Gf2.Width
import OneTimeChannel.Proofs.Gf2.Field

namespace OneTimeChannel.Gf2

open Polynomial

/-! ## A criterion -/

/-- An element of the quotient with an inverse comes from a polynomial without common factors. -/
theorem isCoprime_of_mul_mk_eq_one {p q : (ZMod 2)[X]} {y : AdjoinRoot p}
    (h : y * AdjoinRoot.mk p q = 1) : IsCoprime p q := by
  obtain ⟨r, rfl⟩ := AdjoinRoot.mk_surjective y
  have hdvd : p ∣ r * q - 1 := by
    rw [← AdjoinRoot.mk_eq_zero, map_sub, map_mul, h, map_one, sub_self]
  obtain ⟨s, hs⟩ := hdvd
  exact ⟨-s, r, by linear_combination hs⟩

theorem irreducible_of_root_pow {p : (ZMod 2)[X]} (hp : 0 < p.natDegree)
    (hfix : AdjoinRoot.root p ^ 2 ^ p.natDegree = AdjoinRoot.root p)
    (hmove : ∀ d, d ∣ p.natDegree → d ≠ p.natDegree → ∃ e, d ∣ e ∧
      ∃ y : AdjoinRoot p, y * (AdjoinRoot.root p ^ 2 ^ e - AdjoinRoot.root p) = 1) :
    Irreducible p := by
  have hmk : ∀ e, AdjoinRoot.mk p (X ^ 2 ^ e - X) = AdjoinRoot.root p ^ 2 ^ e - AdjoinRoot.root p := by
    intro e
    rw [map_sub, map_pow, AdjoinRoot.mk_X]
  have hcard : Nat.card (ZMod 2) = 2 := by simp
  have hne : p ≠ 0 := fun h => by simp [h] at hp
  obtain ⟨g, hg, hgp⟩ := WfDvdMonoid.exists_irreducible_factor (not_isUnit_of_natDegree_pos p hp) hne
  -- the degree of an irreducible factor divides that of `p` …
  have hdvd : g.natDegree ∣ p.natDegree := by
    refine hg.natDegree_dvd_of_dvd_X_pow_card_pow_sub_X ?_
    rw [hcard]
    refine hgp.trans ?_
    rw [← AdjoinRoot.mk_eq_zero, hmk, hfix, sub_self]
  -- … and is no proper divisor
  have hdegree : g.natDegree = p.natDegree := by
    by_contra hproper
    obtain ⟨e, hde, y, hy⟩ := hmove g.natDegree hdvd hproper
    rw [← hmk] at hy
    have hge : g ∣ X ^ 2 ^ e - X := by
      have h := hg.natDegree_dvd_iff_dvd_X_pow_card_pow_sub_X.1 hde
      rwa [hcard] at h
    exact hg.not_isUnit ((isCoprime_of_mul_mk_eq_one hy).isUnit_of_dvd' hgp hge)
  exact (associated_of_dvd_of_natDegree_le hgp hne hdegree.ge).irreducible hg

/-! ## Computing with digits -/

/-- The digits of a square: the `k` lowest digits of `a`, with zeros in between. -/
def spread : Nat → Nat → Nat
  | 0, _ => 0
  | k + 1, a => 4 * spread k (a / 2) + a % 2

/-- The carry-less product of `a` with the `k` lowest digits of `b`. -/
def clmul (a b : Nat) : Nat → Nat
  | 0 => 0
  | k + 1 => clmul a b k ^^^ if b.testBit k then a <<< k else 0

/-- Replaces the digits from `n` on by their multiple of the modulus. -/
def foldDigits (n : Nat) (modulus : UInt32) (a : Nat) : Nat :=
  a % 2 ^ n ^^^ clmul (a >>> n) modulus.toNat 32

/-- Two folds bring a product of twice the width back to the width. -/
def reduceDigits (n : Nat) (modulus : UInt32) (a : Nat) : Nat :=
  foldDigits n modulus (foldDigits n modulus a)

/-- Squares `a` as often as asked for. -/
def frobenius? (n : Nat) (modulus : UInt32) : Nat → Nat → Option Nat
  | 0, a => some a
  | k + 1, a =>
    if a < 2 ^ n then frobenius? n modulus k (reduceDigits n modulus (spread n a)) else none

section Value

variable {R : Type*} [CommRing R] [CharP R 2] {x : R}

theorem evalAt_spread (x : R) (k a : Nat) : evalAt x (spread k a) = evalAt x (a % 2 ^ k) ^ 2 := by
  induction k generalizing a with
  | zero => simp [spread, Nat.mod_one]
  | succ k ih =>
    have hlow : (4 * spread k (a / 2) + a % 2) % 2 ^ 2 = a % 2 := by omega
    have hhigh : (4 * spread k (a / 2) + a % 2) >>> 2 = spread k (a / 2) := by
      rw [Nat.shiftRight_eq_div_pow]
      omega
    have hlow' : a % 2 ^ (k + 1) % 2 ^ 1 = a % 2 := by
      rw [pow_one]
      exact Nat.mod_mod_of_dvd a (dvd_pow_self 2 (Nat.succ_ne_zero k))
    have hhigh' : (a % 2 ^ (k + 1)) >>> 1 = a / 2 % 2 ^ k := by
      rw [Nat.shiftRight_eq_div_pow, Nat.pow_succ', pow_one, Nat.mod_mul_right_div_self]
    have hdigit : evalAt x (a % 2) ^ 2 = evalAt x (a % 2) := by
      rcases Nat.mod_two_eq_zero_or_one a with h | h <;> simp [h]
    rw [spread, evalAt_split x _ 2, hlow, hhigh, ih, evalAt_split x (a % 2 ^ (k + 1)) 1, hlow', hhigh',
      pow_one, CharTwo.add_sq, hdigit, mul_pow]

theorem evalAt_clmul (x : R) (a b k : Nat) :
    evalAt x (clmul a b k) = evalAt x a * evalAt x (b % 2 ^ k) := by
  induction k with
  | zero => simp [clmul, Nat.mod_one]
  | succ k ih =>
    rw [clmul, evalAt_xor, ih, evalAt_mod_succ, mul_add]
    congr 1
    cases b.testBit k
    · simp
    · simp only [if_true]
      exact evalAt_shiftLeft x a k

variable {n : Nat} {modulus : UInt32}

theorem evalAt_reduceDigits (hx : x ^ n = evalAt x modulus.toNat) (a : Nat) :
    evalAt x (reduceDigits n modulus a) = evalAt x a := by
  have hfold : ∀ b, evalAt x (foldDigits n modulus b) = evalAt x b := by
    intro b
    rw [foldDigits, evalAt_xor, evalAt_clmul, Nat.mod_eq_of_lt modulus.toNat_lt, ← hx]
    exact (evalAt_split x b n).symm
  rw [reduceDigits, hfold, hfold]

theorem evalAt_of_frobenius? (hx : x ^ n = evalAt x modulus.toNat) {k a b : Nat}
    (h : frobenius? n modulus k a = some b) : evalAt x b = evalAt x a ^ 2 ^ k := by
  induction k generalizing a with
  | zero =>
    cases h
    rw [pow_zero, pow_one]
  | succ k ih =>
    rw [frobenius?] at h
    split at h
    · next hlt =>
      rw [ih h, evalAt_reduceDigits hx, evalAt_spread, Nat.mod_eq_of_lt hlt, ← pow_mul, pow_succ']
    · cases h

end Value

/-! ## The reducing polynomial of a field -/

namespace BinaryField

variable {w : Nat}

/-- The reducing polynomial. -/
noncomputable def polynomial (f : BinaryField w) : (ZMod 2)[X] :=
  X ^ (32 * w) + evalAt X f.modulus.toNat

variable (f : BinaryField w)

theorem degree_evalAt_modulus_lt (hw : 0 < w) :
    (evalAt (X : (ZMod 2)[X]) f.modulus.toNat).degree < (32 * w : Nat) :=
  lt_of_lt_of_le (degree_evalAt_X_lt f.modulus.toNat_lt) (by exact_mod_cast (by omega : 32 ≤ 32 * w))

theorem degree_polynomial (hw : 0 < w) : f.polynomial.degree = (32 * w : Nat) := by
  have hlt := f.degree_evalAt_modulus_lt hw
  rw [← degree_X_pow (R := ZMod 2) (32 * w)] at hlt
  rw [polynomial, degree_add_eq_left_of_degree_lt hlt, degree_X_pow]

theorem natDegree_polynomial (hw : 0 < w) : f.polynomial.natDegree = 32 * w :=
  natDegree_eq_of_degree_eq_some (f.degree_polynomial hw)

theorem charP_adjoinRoot (hw : 0 < w) : CharP (AdjoinRoot f.polynomial) 2 := by
  have hdegree : f.polynomial.degree ≠ 0 := by
    rw [f.degree_polynomial hw]
    exact_mod_cast (by omega : 32 * w ≠ 0)
  exact charP_of_injective_ringHom (AdjoinRoot.of.injective_of_degree_ne_zero hdegree) 2

theorem isRoot_root (hw : 0 < w) : f.IsRoot (AdjoinRoot.root f.polynomial) := by
  have := f.charP_adjoinRoot hw
  have hself : AdjoinRoot.mk f.polynomial f.polynomial = 0 := AdjoinRoot.mk_self
  have hsum : AdjoinRoot.mk f.polynomial (X ^ (32 * w) + evalAt X f.modulus.toNat) = 0 := hself
  rw [map_add, map_pow, map_evalAt, AdjoinRoot.mk_X] at hsum
  exact CharTwo.add_eq_zero.1 hsum

/-- The value of an element at a zero of an irreducible polynomial is zero for zero only. -/
theorem eq_zero_of_valueAt_root_eq_zero (hw : 0 < w) {a : Element w}
    (h : valueAt (AdjoinRoot.root f.polynomial) a = 0) : a = 0 := by
  have hdvd : f.polynomial ∣ evalAt X a.toNat := by
    rw [← AdjoinRoot.mk_eq_zero, map_evalAt, AdjoinRoot.mk_X]
    exact h
  have hdegree : (evalAt (X : (ZMod 2)[X]) a.toNat).degree < f.polynomial.degree := by
    rw [f.degree_polynomial hw]
    exact degree_evalAt_X_lt a.isLt
  have hzero : evalAt (X : (ZMod 2)[X]) a.toNat = evalAt X 0 :=
    eq_zero_of_dvd_of_degree_lt hdvd hdegree
  exact BitVec.eq_of_toNat_eq (evalAt_X_injective hzero)

end BinaryField

/-! ## The five fields -/

namespace Width

theorem words_pos (k : Width) : 0 < k.words := by
  cases k <;> decide

/-- Exponents `e` with an inverse of `x ^ 2 ^ e - x`. -/
def inverses : Width → List (Nat × Nat)
  | bits32 => [(16, 0x5d8c0476)]
  | bits64 => [(32, 0x53cad161bf5a89c7)]
  | bits96 => [(48, 0x31a918de05b192a5e7636ef), (32, 0x5496f5f19cf4cf47d80aeac)]
  | bits128 => [(64, 0x9e4af928ddbc838a41a8cafd2c95b018)]
  | bits256 => [(128, 0x41d07da235f08b92d026035887191e2fd91148129c622b9bd3caaa61ed5af509)]

/-- Whether the inverse is one, for the exponent it is given for. -/
def isInverse (k : Width) (e y : Nat) : Bool :=
  (frobenius? k.bits k.modulus e 2).any fun t =>
    reduceDigits k.bits k.modulus (clmul y (t ^^^ 2) k.bits) == 1 && (t ^^^ 2) < 2 ^ k.bits

theorem frobenius?_bits (k : Width) : frobenius? k.bits k.modulus k.bits 2 = some 2 := by
  cases k <;> decide +kernel

theorem isInverse_inverses (k : Width) : ∀ c ∈ k.inverses, k.isInverse c.1 c.2 = true := by
  cases k <;> decide +kernel

/-- Every proper divisor of the width divides one of the exponents. -/
theorem exists_exponent (k : Width) :
    ∀ d ≤ k.bits, d ∣ k.bits → d ≠ k.bits → ∃ c ∈ k.inverses, d ∣ c.1 := by
  cases k <;> decide +kernel

theorem irreducible_polynomial (k : Width) : Irreducible k.field.polynomial := by
  have hdegree : k.field.polynomial.natDegree = k.bits := k.field.natDegree_polynomial k.words_pos
  have hmodulus : k.field.modulus = k.modulus := by
    rw [field_eq, BinaryField.modulus_ofModulus]
  have hpos : 0 < k.bits := by
    have := k.words_pos
    simp only [bits]
    omega
  have := k.field.charP_adjoinRoot k.words_pos
  have hx : AdjoinRoot.root k.field.polynomial ^ k.bits
      = evalAt (AdjoinRoot.root k.field.polynomial) k.modulus.toNat := by
    rw [← hmodulus]
    exact k.field.isRoot_root k.words_pos
  refine irreducible_of_root_pow (by omega) ?_ ?_
  · have h := evalAt_of_frobenius? hx k.frobenius?_bits
    rw [evalAt_two] at h
    rw [hdegree]
    exact h.symm
  · intro d hd hne
    rw [hdegree] at hd hne
    obtain ⟨⟨e, y⟩, hmem, hde⟩ := k.exists_exponent d (Nat.le_of_dvd hpos hd) hd hne
    obtain ⟨t, ht, hy⟩ := Option.any_eq_true _ _ |>.1 (k.isInverse_inverses _ hmem)
    simp only [Bool.and_eq_true, beq_iff_eq, decide_eq_true_eq] at hy
    refine ⟨e, hde, evalAt (AdjoinRoot.root k.field.polynomial) y, ?_⟩
    have hone := congrArg (evalAt (AdjoinRoot.root k.field.polynomial)) hy.1
    rw [evalAt_reduceDigits hx, evalAt_clmul, Nat.mod_eq_of_lt hy.2, evalAt_xor,
      evalAt_of_frobenius? hx ht, evalAt_two, evalAt_one] at hone
    rw [CharTwo.sub_eq_add]
    exact hone

end Width

end OneTimeChannel.Gf2

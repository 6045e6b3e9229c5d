/-
  Binary digits as coefficients.

  A bit vector stands for a polynomial over the two-element field, and so does a natural number: digit
  `i` is the coefficient of `x ^ i`.  Everything that is proved about the arithmetic of fields goes
  through one map, the value of this polynomial at a point `x` of a ring of characteristic two
  (`evalAt`).  Exclusive or becomes addition, a shift becomes a power of `x`, and cutting a number at
  digit `k` becomes a sum of two terms; nothing else about digits is used later.

  With `x = X` the value is the polynomial itself, and that loses nothing (`evalAt_X_injective`).
-/
import Mathlib.Algebra.CharP.Two
import Mathlib.Algebra.Polynomial.Degree.Operations
import Mathlib.Algebra.Polynomial.Degree.Lemmas
import Mathlib.Data.Nat.Bitwise
import Mathlib.Data.ZMod.Basic
import Mathlib.FieldTheory.Finite.Extension

namespace OneTimeChannel.Gf2

open Polynomial

variable {R : Type*} [CommRing R]

/-- The value at `x` of the polynomial whose coefficients are the binary digits of `n`. -/
def evalAt (x : R) (n : Nat) : R := ∑ i ∈ Finset.range n, if n.testBit i then x ^ i else 0

/-- Any number of digits will do, as long as none is left out. -/
theorem evalAt_eq_sum (x : R) {n k : Nat} (h : n < 2 ^ k) :
    evalAt x n = ∑ i ∈ Finset.range k, if n.testBit i then x ^ i else 0 := by
  have hzero : ∀ i, n < 2 ^ i → (if n.testBit i then x ^ i else 0) = 0 := by
    intro i hi
    rw [Nat.testBit_lt_two_pow hi]
    rfl
  unfold evalAt
  rcases Nat.le_total n k with hnk | hkn
  · refine Finset.sum_subset (Finset.range_mono hnk) fun i _ hi => hzero i ?_
    have hle : n ≤ i := by simpa using hi
    exact Nat.lt_of_le_of_lt hle Nat.lt_two_pow_self
  · refine (Finset.sum_subset (Finset.range_mono hkn) fun i _ hi => hzero i ?_).symm
    have hle : k ≤ i := by simpa using hi
    exact Nat.lt_of_lt_of_le h (Nat.pow_le_pow_right (by decide) hle)

@[simp] theorem evalAt_zero (x : R) : evalAt x 0 = 0 := rfl

@[simp] theorem evalAt_one (x : R) : evalAt x 1 = 1 := by
  simp [evalAt]

theorem evalAt_two (x : R) : evalAt x 2 = x := by
  rw [evalAt_eq_sum x (show 2 < 2 ^ 2 by decide)]
  simp [Finset.sum_range_succ, Nat.testBit_succ]

/-- The digits below the next place. -/
theorem evalAt_mod_succ (x : R) (n k : Nat) :
    evalAt x (n % 2 ^ (k + 1)) = evalAt x (n % 2 ^ k) + if n.testBit k then x ^ k else 0 := by
  have hlow : n % 2 ^ k < 2 ^ k := Nat.mod_lt _ (by positivity)
  have hlow' : n % 2 ^ (k + 1) < 2 ^ (k + 1) := Nat.mod_lt _ (by positivity)
  rw [evalAt_eq_sum x hlow, evalAt_eq_sum x hlow', Finset.sum_range_succ]
  congr 1
  · refine Finset.sum_congr rfl fun i hi => ?_
    have hik : i < k := Finset.mem_range.1 hi
    simp [Nat.testBit_mod_two_pow, hik, Nat.lt_succ_of_lt hik]
  · simp [Nat.testBit_mod_two_pow]

/-- Shifting is multiplying by a power of `x`. -/
theorem evalAt_shiftLeft (x : R) (n k : Nat) : evalAt x (n <<< k) = evalAt x n * x ^ k := by
  have hn : n < 2 ^ n := Nat.lt_two_pow_self
  have hs : n <<< k < 2 ^ (k + n) := by
    rw [Nat.shiftLeft_eq, Nat.pow_add, Nat.mul_comm]
    exact Nat.mul_lt_mul_of_pos_left hn (by positivity)
  rw [evalAt_eq_sum x hs, evalAt_eq_sum x hn, Finset.sum_range_add, Finset.sum_mul]
  have hlow : ∀ i ∈ Finset.range k, (if (n <<< k).testBit i then x ^ i else 0) = 0 := by
    intro i hi
    have hik : ¬ k ≤ i := by simpa using hi
    simp [Nat.testBit_shiftLeft, hik]
  rw [Finset.sum_eq_zero hlow, zero_add]
  refine Finset.sum_congr rfl fun i _ => ?_
  simp only [Nat.testBit_shiftLeft, ge_iff_le, Nat.le_add_right, decide_true, Bool.true_and,
    Nat.add_sub_cancel_left, ite_mul, zero_mul]
  rw [Nat.add_comm k i, pow_add]

/-- A number is cut at any digit. -/
theorem evalAt_split (x : R) (n k : Nat) :
    evalAt x n = evalAt x (n % 2 ^ k) + evalAt x (n >>> k) * x ^ k := by
  have hn : n < 2 ^ (k + n) :=
    Nat.lt_of_lt_of_le Nat.lt_two_pow_self (Nat.pow_le_pow_right (by decide) (by omega))
  have hlow : n % 2 ^ k < 2 ^ k := Nat.mod_lt _ (by positivity)
  have hhigh : n >>> k < 2 ^ n :=
    Nat.lt_of_le_of_lt (Nat.shiftRight_le n k) Nat.lt_two_pow_self
  rw [evalAt_eq_sum x hn, evalAt_eq_sum x hlow, evalAt_eq_sum x hhigh, Finset.sum_range_add,
    Finset.sum_mul]
  congr 1
  · refine Finset.sum_congr rfl fun i hi => ?_
    simp [Nat.testBit_mod_two_pow, Finset.mem_range.1 hi]
  · refine Finset.sum_congr rfl fun i _ => ?_
    rw [Nat.testBit_shiftRight, ite_mul, zero_mul, Nat.add_comm k i, pow_add]

/-- Homomorphisms move the point. -/
theorem map_evalAt {S : Type*} [CommRing S] (φ : R →+* S) (x : R) (n : Nat) :
    φ (evalAt x n) = evalAt (φ x) n := by
  unfold evalAt
  rw [map_sum]
  refine Finset.sum_congr rfl fun i _ => ?_
  rw [apply_ite φ, map_pow, map_zero]

section CharTwo

variable [CharP R 2]

/-- Exclusive or is addition. -/
theorem evalAt_xor (x : R) (a b : Nat) : evalAt x (a ^^^ b) = evalAt x a + evalAt x b := by
  have ha : a < 2 ^ (a + b) :=
    Nat.lt_of_lt_of_le Nat.lt_two_pow_self (Nat.pow_le_pow_right (by decide) (by omega))
  have hb : b < 2 ^ (a + b) :=
    Nat.lt_of_lt_of_le Nat.lt_two_pow_self (Nat.pow_le_pow_right (by decide) (by omega))
  rw [evalAt_eq_sum x ha, evalAt_eq_sum x hb, evalAt_eq_sum x (Nat.xor_lt_two_pow ha hb),
    ← Finset.sum_add_distrib]
  refine Finset.sum_congr rfl fun i _ => ?_
  rw [Nat.testBit_xor]
  cases a.testBit i <;> cases b.testBit i <;> simp [CharTwo.add_self_eq_zero]

/-- What is left when the digits from `k` on are taken away. -/
theorem evalAt_mod (x : R) (n k : Nat) :
    evalAt x (n % 2 ^ k) = evalAt x n + evalAt x (n >>> k) * x ^ k := by
  rw [evalAt_split x n k, add_assoc, CharTwo.add_self_eq_zero, add_zero]

end CharTwo

/-! ## The polynomial itself -/

theorem coeff_evalAt_X (n i : Nat) :
    (evalAt (X : (ZMod 2)[X]) n).coeff i = if n.testBit i then 1 else 0 := by
  have hn : n < 2 ^ (n + i + 1) :=
    Nat.lt_of_lt_of_le Nat.lt_two_pow_self (Nat.pow_le_pow_right (by decide) (by omega))
  have hterm : ∀ j, (if n.testBit j then (X : (ZMod 2)[X]) ^ j else 0).coeff i
      = if j = i then (if n.testBit i then 1 else 0) else 0 := by
    intro j
    by_cases hj : j = i
    · subst hj
      cases n.testBit j <;> simp
    · cases n.testBit j <;> simp [coeff_X_pow, hj, Ne.symm hj]
  rw [evalAt_eq_sum X hn, finsetSum_coeff, Finset.sum_congr rfl fun j _ => hterm j,
    Finset.sum_ite_eq', if_pos (Finset.mem_range.2 (by omega))]

theorem evalAt_X_injective : Function.Injective (evalAt (X : (ZMod 2)[X])) := by
  intro a b hab
  refine Nat.eq_of_testBit_eq fun i => ?_
  have hi := congrArg (fun p => p.coeff i) hab
  simp only [coeff_evalAt_X] at hi
  cases ha : a.testBit i <;> cases hb : b.testBit i <;> simp_all

theorem degree_evalAt_X_lt {n k : Nat} (h : n < 2 ^ k) :
    (evalAt (X : (ZMod 2)[X]) n).degree < k := by
  refine (degree_lt_iff_coeff_zero _ _).2 fun i hi => ?_
  have hlt : n < 2 ^ i := Nat.lt_of_lt_of_le h (Nat.pow_le_pow_right (by decide) hi)
  rw [coeff_evalAt_X, Nat.testBit_lt_two_pow hlt]
  rfl

end OneTimeChannel.Gf2

/-
  The product is the remainder of the product of polynomials.

  For every width and modulus, `multiply` gives the remainder that the product of two polynomials leaves on
  division by `x ^ (32 * w) + m` (`multiply_eq_modByMonic`).  The remainder is the only polynomial below the
  degree of the divisor with the same value at a zero of it, and `multiply` keeps this value.

  Two other ways to the product are compared with it.  One adds `a * x ^ i` for each coefficient of `b`
  (`shiftAndAdd`), the schoolbook rule with coefficients as digits.  The other is the schoolbook rule with
  32-bit words as digits (`multiplyWords`): the products of two words are added into an array of twice the
  width, and the upper half of this array is folded, word by word and bit by bit.
-/
import OneTimeChannel.Proofs.Gf2.FixedFactor

namespace OneTimeChannel.Gf2

open Polynomial

variable {w : Nat}

/-! ## Polynomials -/

/-- The polynomial with the coefficients of a bit vector. -/
noncomputable def toPolynomial {n : Nat} (a : BitVec n) : (ZMod 2)[X] := valueAt X a

theorem coeff_toPolynomial {n : Nat} (a : BitVec n) (i : Nat) :
    (toPolynomial a).coeff i = if a.getLsbD i then 1 else 0 := by
  rw [toPolynomial, valueAt, coeff_evalAt_X, BitVec.testBit_toNat]

theorem degree_toPolynomial_lt {n : Nat} (a : BitVec n) : (toPolynomial a).degree < n :=
  degree_evalAt_X_lt a.isLt

namespace BinaryField

variable (f : BinaryField w)

theorem mk_toPolynomial (a : Element w) : AdjoinRoot.mk f.polynomial (toPolynomial a) = f.value a := by
  rw [toPolynomial, valueAt, map_evalAt, AdjoinRoot.mk_X]
  rfl

theorem monic_polynomial (hw : 0 < w) : f.polynomial.Monic :=
  monic_X_pow_add (f.degree_evalAt_modulus_lt hw)

/-- The product has the degree of a remainder, and differs from the product of the polynomials by a
    multiple of the divisor. -/
theorem toPolynomial_multiply (hw : 0 < w) (a b : Element w) :
    toPolynomial (f.multiply a b) = (toPolynomial a * toPolynomial b) %ₘ f.polynomial := by
  have hdvd : f.polynomial ∣ toPolynomial a * toPolynomial b - toPolynomial (f.multiply a b) := by
    rw [← AdjoinRoot.mk_eq_zero, map_sub, map_mul, mk_toPolynomial, mk_toPolynomial, mk_toPolynomial,
      value_multiply hw, sub_self]
  obtain ⟨q, hq⟩ := hdvd
  have hdegree : (toPolynomial (f.multiply a b)).degree < f.polynomial.degree := by
    rw [f.degree_polynomial hw]
    exact degree_toPolynomial_lt _
  refine (div_modByMonic_unique q _ (f.monic_polynomial hw) ⟨?_, hdegree⟩).2.symm
  linear_combination -hq

end BinaryField

/-! ## Sums -/

/-- The sum of the first `n` terms. -/
def xorSum (term : Nat → Element w) : Nat → Element w
  | 0 => 0
  | n + 1 => xorSum term n ^^^ term n

theorem BinaryField.value_xorSum {f : BinaryField w} (hw : 0 < w) (term : Nat → Element w) (n : Nat) :
    f.value (xorSum term n) = ∑ i ∈ Finset.range n, f.value (term i) := by
  induction n with
  | zero => exact valueAt_zero _ _
  | succ n ih => rw [xorSum, value_xor hw, ih, Finset.sum_range_succ]

/-! ## Coefficient by coefficient -/

/-- Adds `a * x ^ i` for each coefficient of `b`, where `x` is multiplied with as often as needed. -/
def shiftAndAdd (modulus : UInt32) (a b : Element w) : Element w :=
  xorSum (fun i => bif b.getLsbD i then (timesX modulus)^[i] a else 0) (32 * w)

namespace BinaryField

variable (f : BinaryField w)

theorem value_iterate_timesX (hw : 0 < w) (a : Element w) (i : Nat) :
    f.value ((timesX f.modulus)^[i] a) = f.value a * AdjoinRoot.root f.polynomial ^ i := by
  have := f.charP_adjoinRoot hw
  induction i with
  | zero => simp
  | succ i ih =>
    rw [Function.iterate_succ_apply', value, valueAt_timesX (f.isRoot_root hw) hw, ← value, ih, pow_succ,
      mul_assoc]

theorem shiftAndAdd_eq_multiply (hw : 0 < w) (a b : Element w) :
    shiftAndAdd f.modulus a b = f.multiply a b := by
  have hterm : ∀ i, f.value (bif b.getLsbD i then (timesX f.modulus)^[i] a else 0)
      = f.value a * if b.toNat.testBit i then AdjoinRoot.root f.polynomial ^ i else 0 := by
    intro i
    rw [← BitVec.testBit_toNat]
    cases b.toNat.testBit i
    · rw [cond_false, if_neg Bool.false_ne_true, mul_zero]
      exact valueAt_zero _ _
    · rw [cond_true, if_pos rfl, f.value_iterate_timesX hw]
  apply value_injective (f := f) hw
  rw [value_multiply hw, shiftAndAdd, value_xorSum hw, Finset.sum_congr rfl fun i _ => hterm i,
    ← Finset.mul_sum, ← evalAt_eq_sum _ b.isLt]
  rfl

end BinaryField

/-! ## Word by word -/

section Words

variable {R : Type*} [CommRing R] (x : R)

/-- The value of an array of words, lowest first. -/
def wordsValue : List (BitVec 32) → R
  | [] => 0
  | v :: vs => valueAt x v + wordsValue vs * x ^ 32

theorem wordsValue_replicate_zero (n : Nat) : wordsValue x (List.replicate n 0) = 0 := by
  induction n with
  | zero => rfl
  | succ n ih => rw [List.replicate_succ, wordsValue, ih, zero_mul, add_zero]; exact valueAt_zero x 32

theorem wordsValue_append (us vs : List (BitVec 32)) :
    wordsValue x (us ++ vs) = wordsValue x us + wordsValue x vs * x ^ (32 * us.length) := by
  induction us with
  | nil => simp [wordsValue]
  | cons u us ih =>
    rw [List.cons_append, wordsValue, ih, wordsValue, List.length_cons, Nat.mul_succ, pow_add]
    ring

theorem wordsValue_eq_sum (ws : List (BitVec 32)) :
    wordsValue x ws = ∑ k ∈ Finset.range ws.length, valueAt x (ws.getD k 0) * x ^ (32 * k) := by
  induction ws with
  | nil => rfl
  | cons v vs ih =>
    rw [wordsValue, ih, List.length_cons, Finset.sum_range_succ', Finset.sum_mul, add_comm]
    congr 1
    · refine Finset.sum_congr rfl fun k _ => ?_
      rw [List.getD_cons_succ, mul_assoc, ← pow_add]
      rfl
    · simp

/-- An element is its words. -/
theorem valueAt_eq_sum_word (a : Element w) :
    valueAt x a = ∑ k ∈ Finset.range w, valueAt x (a.word k) * x ^ (32 * k) := by
  have hlow : ∀ n, evalAt x (a.toNat % 2 ^ (32 * n))
      = ∑ k ∈ Finset.range n, valueAt x (Element.word a k) * x ^ (32 * k) := by
    intro n
    induction n with
    | zero => simp [Nat.mod_one]
    | succ n ih =>
      have hmod : a.toNat % 2 ^ (32 * (n + 1)) % 2 ^ (32 * n) = a.toNat % 2 ^ (32 * n) :=
        Nat.mod_mod_of_dvd _ (pow_dvd_pow 2 (Nat.mul_le_mul_left _ (Nat.le_succ n)))
      have hword : (a.toNat % 2 ^ (32 * (n + 1))) >>> (32 * n) = (Element.word a n).toNat := by
        rw [Element.word, BitVec.extractLsb'_toNat, Nat.shiftRight_eq_div_pow, Nat.shiftRight_eq_div_pow,
          Nat.mul_succ, Nat.pow_add, Nat.mod_mul_right_div_self]
      rw [evalAt_split x _ (32 * n), hmod, hword, ih, Finset.sum_range_succ]
      rfl
  rw [← hlow w, Nat.mod_eq_of_lt a.isLt]
  rfl

theorem valueAt_ofWords {ws : List (BitVec 32)} (h : ws.length ≤ w) :
    valueAt x (Element.ofWords ws : Element w) = wordsValue x ws := by
  have hnumber : ws.foldr (fun v n => v.toNat + n <<< 32) 0 < 2 ^ (32 * ws.length)
      ∧ evalAt x (ws.foldr (fun v n => v.toNat + n <<< 32) 0) = wordsValue x ws := by
    clear h
    induction ws with
    | nil => exact ⟨Nat.one_pos, rfl⟩
    | cons v vs ih =>
      have hv : v.toNat < 2 ^ 32 := v.isLt
      rw [List.foldr_cons, List.length_cons, wordsValue, ← ih.2]
      generalize vs.foldr (fun v n => v.toNat + n <<< 32) 0 = n at ih ⊢
      rw [Nat.shiftLeft_eq, Nat.mul_comm]
      have hlow : (v.toNat + 2 ^ 32 * n) % 2 ^ 32 = v.toNat := by omega
      have hhigh : (v.toNat + 2 ^ 32 * n) >>> 32 = n := by
        rw [Nat.shiftRight_eq_div_pow]
        omega
      constructor
      · have hn := ih.1
        rw [Nat.mul_succ, Nat.pow_add]
        omega
      · rw [evalAt_split x _ 32, hlow, hhigh]
        rfl
  have hlt : 2 ^ (32 * ws.length) ≤ 2 ^ (32 * w) :=
    Nat.pow_le_pow_right (by decide) (Nat.mul_le_mul_left 32 h)
  rw [Element.ofWords, valueAt_ofNat_of_lt x (Nat.lt_of_lt_of_le hnumber.1 hlt), hnumber.2]

variable [CharP R 2]

theorem wordsValue_modify (ws : List (BitVec 32)) {k : Nat} (hk : k < ws.length) (v : BitVec 32) :
    wordsValue x (ws.modify k (· ^^^ v)) = wordsValue x ws + valueAt x v * x ^ (32 * k) := by
  induction ws generalizing k with
  | nil => cases hk
  | cons u us ih =>
    cases k with
    | zero =>
      rw [List.modify_zero_cons, wordsValue, wordsValue, valueAt_xor]
      ring
    | succ k =>
      rw [List.modify_succ_cons, wordsValue, wordsValue, ih (Nat.lt_of_succ_lt_succ hk), Nat.mul_succ,
        pow_add]
      ring

/-! ## Adding products of words -/

/-- Adds the product of two words at a place of an array: its lower half there, its upper half one place
    up. -/
def addProduct (words : List (BitVec 32)) (k : Nat) (p : BitVec (32 + 32)) : List (BitVec 32) :=
  (words.modify k (· ^^^ p.setWidth 32)).modify (k + 1) (· ^^^ p.extractLsb' 32 32)

@[simp] theorem length_addProduct (words : List (BitVec 32)) (k : Nat) (p : BitVec (32 + 32)) :
    (addProduct words k p).length = words.length := by
  simp [addProduct]

theorem wordsValue_addProduct {words : List (BitVec 32)} {k : Nat} (hk : k + 1 < words.length)
    (p : BitVec (32 + 32)) :
    wordsValue x (addProduct words k p) = wordsValue x words + valueAt x p * x ^ (32 * k) := by
  have hk' : k + 1 < (words.modify k (· ^^^ p.setWidth 32)).length := by
    rw [List.length_modify]
    exact hk
  rw [addProduct, wordsValue_modify x _ hk', wordsValue_modify x _ (by omega), valueAt_halves x p,
    Nat.mul_succ, pow_add]
  ring

/-- Adds the products of a word with the first `n` words of `b`. -/
def addRow (i : Nat) (v : BitVec 32) (b : Element w) (words : List (BitVec 32)) (n : Nat) :
    List (BitVec 32) :=
  (List.range n).foldl
    (fun words j => addProduct words (i + j) (BinaryField.carrylessProduct v (b.word j))) words

theorem addRow_succ (i : Nat) (v : BitVec 32) (b : Element w) (words : List (BitVec 32)) (n : Nat) :
    addRow i v b words (n + 1)
      = addProduct (addRow i v b words n) (i + n) (BinaryField.carrylessProduct v (b.word n)) := by
  rw [addRow, List.range_succ, List.foldl_append]
  rfl

@[simp] theorem length_addRow (i : Nat) (v : BitVec 32) (b : Element w) (words : List (BitVec 32))
    (n : Nat) : (addRow i v b words n).length = words.length := by
  induction n with
  | zero => rfl
  | succ n ih => rw [addRow_succ, length_addProduct, ih]

theorem wordsValue_addRow {i : Nat} (v : BitVec 32) (b : Element w) {words : List (BitVec 32)} {n : Nat}
    (h : i + n < words.length) :
    wordsValue x (addRow i v b words n) = wordsValue x words
      + valueAt x v * (∑ j ∈ Finset.range n, valueAt x (b.word j) * x ^ (32 * j)) * x ^ (32 * i) := by
  induction n with
  | zero => simp [addRow]
  | succ n ih =>
    have hplace : i + n + 1 < (addRow i v b words n).length := by
      rw [length_addRow]
      omega
    rw [addRow_succ, wordsValue_addProduct x hplace, ih (by omega), Finset.sum_range_succ,
      BinaryField.valueAt_carrylessProduct, Nat.mul_add, pow_add]
    ring

/-- Adds the rows of the first `n` words of `a`; words of zeros are skipped. -/
def addRows (a b : Element w) (words : List (BitVec 32)) (n : Nat) : List (BitVec 32) :=
  (List.range n).foldl
    (fun words i => if a.word i = 0 then words else addRow i (a.word i) b words w) words

theorem addRows_succ (a b : Element w) (words : List (BitVec 32)) (n : Nat) :
    addRows a b words (n + 1) = if a.word n = 0 then addRows a b words n
      else addRow n (a.word n) b (addRows a b words n) w := by
  rw [addRows, List.range_succ, List.foldl_append]
  rfl

@[simp] theorem length_addRows (a b : Element w) (words : List (BitVec 32)) (n : Nat) :
    (addRows a b words n).length = words.length := by
  induction n with
  | zero => rfl
  | succ n ih =>
    rw [addRows_succ]
    split
    · exact ih
    · rw [length_addRow, ih]

theorem wordsValue_addRows (a b : Element w) {words : List (BitVec 32)} {n : Nat}
    (h : n + w ≤ words.length) :
    wordsValue x (addRows a b words n) = wordsValue x words
      + (∑ i ∈ Finset.range n, valueAt x (a.word i) * x ^ (32 * i)) * valueAt x b := by
  induction n with
  | zero => simp [addRows]
  | succ n ih =>
    rw [addRows_succ, Finset.sum_range_succ]
    split
    · next hzero =>
      have hvalue : valueAt x (a.word n) = 0 := by
        rw [hzero]
        exact valueAt_zero x 32
      rw [ih (by omega), hvalue, zero_mul, add_zero]
    · have hplace : n + w < (addRows a b words n).length := by
        rw [length_addRows]
        omega
      rw [wordsValue_addRow x _ b hplace, ih (by omega), ← valueAt_eq_sum_word x b]
      ring

/-- The words of the product of two polynomials, lowest first. -/
def productWords (a b : Element w) : List (BitVec 32) :=
  addRows a b (List.replicate (2 * w) 0) w

@[simp] theorem length_productWords (a b : Element w) : (productWords a b).length = 2 * w := by
  rw [productWords, length_addRows, List.length_replicate]

theorem wordsValue_productWords (a b : Element w) :
    wordsValue x (productWords a b) = valueAt x a * valueAt x b := by
  have hplace : w + w ≤ (List.replicate (2 * w) (0 : BitVec 32)).length := by
    rw [List.length_replicate]
    omega
  rw [productWords, wordsValue_addRows x a b hplace, wordsValue_replicate_zero, zero_add,
    ← valueAt_eq_sum_word x a]

end Words

/-! ## Folding words -/

namespace BinaryField

variable (f : BinaryField w)

/-- Adds the remainders that the coefficients of word `k` of the upper half stand for, as far as they are
    below `n`. -/
def foldWord (k : Nat) (v : BitVec 32) (acc : Element w) (n : Nat) : Element w :=
  ((List.range n).filter v.getLsbD).foldl (fun acc i => acc ^^^ f.highPower (32 * k + i)) acc

theorem value_foldWord (hw : 0 < w) {k : Nat} (hk : k < w) (v : BitVec 32) (acc : Element w) {n : Nat}
    (hn : n ≤ 32) :
    f.value (f.foldWord k v acc n) = f.value acc
      + evalAt (AdjoinRoot.root f.polynomial) (v.toNat % 2 ^ n)
        * AdjoinRoot.root f.polynomial ^ (32 * w + 32 * k) := by
  have := f.charP_adjoinRoot hw
  induction n with
  | zero => simp [foldWord, Nat.mod_one]
  | succ n ih =>
    have ihn := ih (by omega)
    rw [foldWord] at ihn
    have hpower : f.value (f.highPower (32 * k + n))
        = AdjoinRoot.root f.polynomial ^ (32 * w + (32 * k + n)) :=
      valueAt_highPower (f.isRoot_root hw) hw (by omega)
    rw [foldWord, List.range_succ, List.filter_append, List.foldl_append, evalAt_mod_succ,
      BitVec.testBit_toNat]
    by_cases hbit : v.getLsbD n = true
    · rw [List.filter_cons_of_pos hbit, List.filter_nil, List.foldl_cons, List.foldl_nil, value_xor hw, ihn,
        hpower, if_pos hbit]
      ring
    · rw [List.filter_cons_of_neg hbit, List.filter_nil, List.foldl_nil, ihn, if_neg hbit, add_zero]

/-- Folds the upper half of a product, highest word first. -/
def foldWords (high : List (BitVec 32)) (acc : Element w) : Nat → Element w
  | 0 => acc
  | k + 1 => foldWords high (f.foldWord k (high.getD k 0) acc 32) k

theorem value_foldWords (hw : 0 < w) (high : List (BitVec 32)) (acc : Element w) {n : Nat} (hn : n ≤ w) :
    f.value (f.foldWords high acc n) = f.value acc
      + (∑ k ∈ Finset.range n, valueAt (AdjoinRoot.root f.polynomial) (high.getD k 0)
          * AdjoinRoot.root f.polynomial ^ (32 * k))
        * AdjoinRoot.root f.polynomial ^ (32 * w) := by
  induction n generalizing acc with
  | zero => simp [foldWords]
  | succ n ih =>
    have hword : (high.getD n 0).toNat % 2 ^ 32 = (high.getD n 0).toNat := Nat.mod_eq_of_lt (BitVec.isLt _)
    rw [foldWords, ih _ (by omega), f.value_foldWord hw (by omega) _ _ (Nat.le_refl 32), hword,
      Finset.sum_range_succ, pow_add, valueAt]
    ring

/-- The remainder of an array of words, lowest first: the upper half is folded and added to the lower one. -/
def reduceWords (words : List (BitVec 32)) : Element w :=
  f.foldWords (words.drop w) 0 w ^^^ Element.ofWords (words.take w)

/-- Reducing keeps the value of an array of twice the width. -/
theorem value_reduceWords (hw : 0 < w) {words : List (BitVec 32)} (h : words.length = 2 * w) :
    f.value (f.reduceWords words) = wordsValue (AdjoinRoot.root f.polynomial) words := by
  have := f.charP_adjoinRoot hw
  have hlow : (words.take w).length = w := by
    rw [List.length_take]
    omega
  have hhigh : (words.drop w).length = w := by
    rw [List.length_drop]
    omega
  have hsum := wordsValue_eq_sum (AdjoinRoot.root f.polynomial) (words.drop w)
  rw [hhigh] at hsum
  have hwhole := wordsValue_append (AdjoinRoot.root f.polynomial) (words.take w) (words.drop w)
  rw [List.take_append_drop, hlow] at hwhole
  have hzero : f.value 0 = 0 := valueAt_zero _ _
  rw [reduceWords, value_xor hw, f.value_foldWords hw _ _ (Nat.le_refl w), ← hsum, hzero, zero_add,
    hwhole, add_comm, value, valueAt_ofWords _ hlow.le]

/-- The product, computed with words as digits. -/
def multiplyWords (a b : Element w) : Element w :=
  let words := productWords a b
  f.foldWords (words.drop w) 0 w ^^^ Element.ofWords (words.take w)

theorem multiplyWords_eq_multiply (hw : 0 < w) (a b : Element w) :
    f.multiplyWords a b = f.multiply a b := by
  have := f.charP_adjoinRoot hw
  have hreduce := f.value_reduceWords hw (length_productWords a b)
  rw [wordsValue_productWords] at hreduce
  apply value_injective (f := f) hw
  rw [value_multiply hw]
  exact hreduce

/-! ## The product -/

/-- For every width and modulus, `multiply` gives the remainder that the product of the two polynomials
    leaves on division by `x ^ (32 * w) + m`.  Adding up shifted copies gives the same, and so do words. -/
theorem multiply_eq_modByMonic (modulus : UInt32) (a b : Element w) :
    toPolynomial ((ofModulus modulus).multiply a b)
        = (toPolynomial a * toPolynomial b) %ₘ (X ^ (32 * w) + toPolynomial modulus.toBitVec)
      ∧ (ofModulus modulus).multiply a b = shiftAndAdd modulus a b
      ∧ (ofModulus modulus).multiply a b = (ofModulus modulus).multiplyWords a b := by
  by_cases hw : w = 0
  · -- there is only one element, and its polynomial is zero
    subst hw
    have hzero : ∀ c : Element 0, toPolynomial c = 0 := by
      intro c
      obtain rfl : c = 0 := BitVec.eq_of_toNat_eq (by omega)
      exact valueAt_zero X _
    have hone : ∀ c d : Element 0, c = d := fun c d => BitVec.eq_of_toNat_eq (by omega)
    refine ⟨?_, hone _ _, hone _ _⟩
    rw [hzero, hzero, zero_mul, zero_modByMonic]
  · have hpos : 0 < w := Nat.pos_of_ne_zero hw
    refine ⟨toPolynomial_multiply (ofModulus modulus) hpos a b, ?_, ?_⟩
    · exact (shiftAndAdd_eq_multiply (ofModulus modulus) hpos a b).symm
    · exact (multiplyWords_eq_multiply (ofModulus modulus) hpos a b).symm

end BinaryField

end OneTimeChannel.Gf2

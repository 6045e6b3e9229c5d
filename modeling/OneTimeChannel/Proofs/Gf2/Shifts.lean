/-
  Shifts in both directions.

  A shift to the left by `n` places multiplies by `x ^ n`, for every modulus and every `n`: it is `n` times
  the multiplication by `x`, and the remainder of the product with `X ^ n`.  A shift to the right drops the
  `n` lowest coefficients and moves the others down; what it drops is all that is lost when an element is
  shifted to the right and back.

  Both are done on words.  To the left, each word goes to two places of an array of twice the width, whose
  upper half is then folded (`shiftLeftWords`).  To the right, each word is put together from two
  (`getLsbD_shiftRight`).  If the distance is a multiple of 32, one of the two is left out.
-/
import OneTimeChannel.Proofs.Gf2.Product
import OneTimeChannel.Proofs.Gf2.Views

namespace OneTimeChannel.Gf2

open Polynomial

variable {w : Nat}

/-! ## Digits of arrays of words -/

theorem testBit_foldr_words (ws : List (BitVec 32)) (i : Nat) :
    (ws.foldr (fun (v : BitVec 32) n => v.toNat + n <<< 32) 0).testBit i
      = (ws.getD (i / 32) 0).getLsbD (i % 32) := by
  have hword : ∀ d ∈ ws.map BitVec.toNat, d < 2 ^ 32 := List.forall_mem_map.2 fun v _ => v.isLt
  have hdigit := testBit_foldr_digits (by decide) hword i
  rwa [List.foldr_map, ← BitVec.toNat_zero (w := 32), List.getD_map, BitVec.testBit_toNat] at hdigit

/-- Coefficient `i` of an element is in its word `i / 32`. -/
theorem Element.getLsbD_ofWords {ws : List (BitVec 32)} (h : ws.length ≤ w) (i : Nat) :
    (Element.ofWords ws : Element w).getLsbD i = (ws.getD (i / 32) 0).getLsbD (i % 32) := by
  rw [ofWords, BitVec.getLsbD_ofNat, testBit_foldr_words]
  by_cases hi : i < 32 * w
  · rw [decide_eq_true hi, Bool.true_and]
  · rw [decide_eq_false hi, Bool.false_and, List.getD_eq_default _ _ (by omega)]
    exact BitVec.getLsbD_zero.symm

/-- What is added to one word is in no other. -/
theorem getLsbD_modify_or (ws : List (BitVec 32)) (p : Nat) (v : BitVec 32) {k : Nat} (hk : k < ws.length)
    (i : Nat) :
    ((ws.modify p (· ||| v)).getD k 0).getLsbD i
      = ((ws.getD k 0).getLsbD i || (decide (p = k) && v.getLsbD i)) := by
  rw [List.getD_eq_getElem?_getD, List.getElem?_modify, List.getElem?_eq_getElem hk, Option.map_eq_map,
    Option.map_some, Option.getD_some, List.getD_eq_getElem _ _ hk]
  by_cases hp : p = k
  · rw [if_pos hp, BitVec.getLsbD_or, decide_eq_true hp, Bool.true_and]
  · rw [if_neg hp, decide_eq_false hp, Bool.false_and, Bool.or_false]

/-! ## To the right -/

namespace Element

/-- Coefficient `i` of the result is coefficient `i + n` of the element. -/
theorem getLsbD_shiftRight (a : Element w) (n i : Nat) :
    (a.shiftRight n).getLsbD i = a.getLsbD (i + n) := by
  rw [shiftRight]
  split
  · next hall => rw [BitVec.getLsbD_of_ge a _ (by omega)]; exact BitVec.getLsbD_zero
  next hn =>
  rw [getLsbD_ofWords (by simp)]
  by_cases hi : i < 32 * w
  · have hk : i / 32 < ((List.range w).map fun k => (a.word (k + n / 32) >>> (n % 32))
        ||| (if n % 32 = 0 then 0 else a.word (k + n / 32 + 1) <<< (32 - n % 32))).length := by
      rw [List.length_map, List.length_range]
      omega
    rw [List.getD_eq_getElem _ _ hk, List.getElem_map, List.getElem_range, BitVec.getLsbD_or,
      BitVec.getLsbD_ushiftRight]
    by_cases hfits : n % 32 + i % 32 < 32
    · -- the digit comes from the lower of the two words
      have hplace : 32 * (i / 32 + n / 32) + (n % 32 + i % 32) = i + n := by omega
      have hnone : (if n % 32 = 0 then 0 else a.word (i / 32 + n / 32 + 1) <<< (32 - n % 32)).getLsbD
          (i % 32) = false := by
        split
        · exact BitVec.getLsbD_zero
        · rw [BitVec.getLsbD_shiftLeft, decide_eq_true (show i % 32 < 32 - n % 32 by omega)]
          simp
      rw [getLsbD_word a hfits, hplace, hnone, Bool.or_false]
    · -- the lower word has no such digit
      have hplace : 32 * (i / 32 + n / 32 + 1) + (i % 32 - (32 - n % 32)) = i + n := by omega
      rw [BitVec.getLsbD_of_ge _ _ (Nat.not_lt.1 hfits), Bool.false_or, if_neg (by omega),
        BitVec.getLsbD_shiftLeft, decide_eq_true (show i % 32 < 32 by omega),
        decide_eq_false (show ¬ i % 32 < 32 - n % 32 by omega), getLsbD_word a (by omega), hplace]
      rfl
  · rw [List.getD_eq_default _ _ (by rw [List.length_map, List.length_range]; omega),
      BitVec.getLsbD_of_ge a _ (by omega)]
    exact BitVec.getLsbD_zero

theorem shiftRight_eq_ushiftRight (a : Element w) (n : Nat) : a.shiftRight n = a >>> n := by
  apply BitVec.eq_of_getLsbD_eq
  intro i _
  rw [getLsbD_shiftRight, BitVec.getLsbD_ushiftRight, Nat.add_comm]

theorem shiftRight_shiftRight (a : Element w) (i j : Nat) :
    (a.shiftRight i).shiftRight j = a.shiftRight (i + j) := by
  apply BitVec.eq_of_getLsbD_eq
  intro k _
  rw [getLsbD_shiftRight, getLsbD_shiftRight, getLsbD_shiftRight, Nat.add_assoc, Nat.add_comm j i]

/-- Above the width there is nothing to move down. -/
theorem coefficient?_shiftRight (a : Element w) (n i : Nat) :
    (a.shiftRight n).coefficient? i
      = if i < 32 * w then some ((a.coefficient? (i + n)).getD false) else none := by
  have hget : (a.coefficient? (i + n)).getD false = a.getLsbD (i + n) := by
    rw [coefficient?]
    split
    · rfl
    · next hi => exact (BitVec.getLsbD_of_ge a _ (Nat.not_lt.1 hi)).symm
  rw [hget, coefficient?, getLsbD_shiftRight]

/-- The element with the coefficients below `x ^ n` alone. -/
def lowest (a : Element w) (n : Nat) : Element w := (a.setWidth n).setWidth (32 * w)

theorem toNat_lowest (a : Element w) (n : Nat) : (a.lowest n).toNat = a.toNat % 2 ^ n := by
  rw [lowest, BitVec.toNat_setWidth, BitVec.toNat_setWidth]
  exact Nat.mod_eq_of_lt (Nat.lt_of_le_of_lt (Nat.mod_le _ _) a.isLt)

theorem coefficient?_lowest (a : Element w) (n i : Nat) :
    (a.lowest n).coefficient? i = (a.coefficient? i).map (decide (i < n) && ·) := by
  rw [coefficient?, coefficient?, ← BitVec.testBit_toNat, toNat_lowest, Nat.testBit_mod_two_pow,
    BitVec.testBit_toNat]
  split <;> rfl

end Element

/-! ## To the left, word by word -/

/-- Adds a word to an array of words at the place that is `n` digits above word `k`: its lower part to one
    word, and the part that is pushed out, if there is any, to the next. -/
def putShifted (n : Nat) (ws : List (BitVec 32)) (k : Nat) (v : BitVec 32) : List (BitVec 32) :=
  let ws := ws.modify (k + n / 32) (· ||| v <<< (n % 32))
  if n % 32 = 0 then ws else ws.modify (k + n / 32 + 1) (· ||| v >>> (32 - n % 32))

@[simp] theorem length_putShifted (n : Nat) (ws : List (BitVec 32)) (k : Nat) (v : BitVec 32) :
    (putShifted n ws k v).length = ws.length := by
  simp only [putShifted]
  split <;> simp

/-- The two places of a word. -/
theorem getLsbD_putShifted_or (n : Nat) {ws : List (BitVec 32)} (k : Nat) (v : BitVec 32) {p : Nat}
    (hp : p < ws.length) (i : Nat) :
    ((putShifted n ws k v).getD p 0).getLsbD i
      = ((ws.getD p 0).getLsbD i || (decide (k + n / 32 = p) && (v <<< (n % 32)).getLsbD i)
        || (decide (k + n / 32 + 1 = p) && (v >>> (32 - n % 32)).getLsbD i)) := by
  rw [putShifted]
  split
  · next heven =>
    -- a shift by whole words leaves nothing for the second place
    have hnone : (v >>> (32 - n % 32)).getLsbD i = false := by
      rw [BitVec.getLsbD_ushiftRight]
      exact BitVec.getLsbD_of_ge _ _ (by omega)
    rw [hnone, Bool.and_false, Bool.or_false]
    exact getLsbD_modify_or ws _ _ hp i
  · rw [getLsbD_modify_or _ _ _ (by rwa [List.length_modify]), getLsbD_modify_or ws _ _ hp]

/-- Every digit of the word goes `n` places up. -/
theorem getLsbD_putShifted (n : Nat) {ws : List (BitVec 32)} (k : Nat) (v : BitVec 32) {p : Nat}
    (hp : p < ws.length) {i : Nat} (hi : i < 32) :
    ((putShifted n ws k v).getD p 0).getLsbD i
      = ((ws.getD p 0).getLsbD i
        || (decide (n + 32 * k ≤ 32 * p + i) && v.getLsbD (32 * p + i - (n + 32 * k)))) := by
  rw [getLsbD_putShifted_or n k v hp, Bool.or_assoc]
  congr 1
  rw [BitVec.getLsbD_shiftLeft, decide_eq_true hi, Bool.true_and, BitVec.getLsbD_ushiftRight]
  rcases Nat.lt_trichotomy p (k + n / 32) with hbelow | rfl | habove
  · rw [decide_eq_false (show ¬ k + n / 32 = p by omega),
      decide_eq_false (show ¬ k + n / 32 + 1 = p by omega),
      decide_eq_false (show ¬ n + 32 * k ≤ 32 * p + i by omega)]
    rfl
  · -- the lower part of the word
    have hplace : 32 * (k + n / 32) + i - (n + 32 * k) = i - n % 32 := by omega
    have hle : n + 32 * k ≤ 32 * (k + n / 32) + i ↔ ¬ i < n % 32 := by omega
    rw [hplace, decide_eq_true rfl, decide_eq_false (show ¬ k + n / 32 + 1 = k + n / 32 by omega),
      Bool.true_and, Bool.false_and, Bool.or_false, decide_eq_decide.2 hle, decide_not]
  · rw [decide_eq_false (show ¬ k + n / 32 = p by omega), Bool.false_and, Bool.false_or,
      decide_eq_true (show n + 32 * k ≤ 32 * p + i by omega), Bool.true_and]
    by_cases hnext : k + n / 32 + 1 = p
    · -- the part that is pushed out
      subst hnext
      have hplace : 32 * (k + n / 32 + 1) + i - (n + 32 * k) = 32 - n % 32 + i := by omega
      rw [hplace, decide_eq_true rfl, Bool.true_and]
    · rw [decide_eq_false hnext, Bool.false_and, BitVec.getLsbD_of_ge _ _ (by omega)]

/-- The first `m` words of an element, moved `n` digits up, in an array of twice the width. -/
def shiftedWords (a : Element w) (n m : Nat) : List (BitVec 32) :=
  (List.range m).foldl (fun ws k => putShifted n ws k (a.word k)) (List.replicate (2 * w) 0)

theorem shiftedWords_succ (a : Element w) (n m : Nat) :
    shiftedWords a n (m + 1) = putShifted n (shiftedWords a n m) m (a.word m) := by
  rw [shiftedWords, List.range_succ, List.foldl_append]
  rfl

@[simp] theorem length_shiftedWords (a : Element w) (n m : Nat) :
    (shiftedWords a n m).length = 2 * w := by
  induction m with
  | zero => exact List.length_replicate
  | succ m ih => rw [shiftedWords_succ, length_putShifted, ih]

theorem getLsbD_shiftedWords (a : Element w) (n m : Nat) {p : Nat} (hp : p < 2 * w) {i : Nat}
    (hi : i < 32) :
    ((shiftedWords a n m).getD p 0).getLsbD i
      = (decide (n ≤ 32 * p + i ∧ 32 * p + i < n + 32 * m) && a.getLsbD (32 * p + i - n)) := by
  induction m with
  | zero =>
    rw [shiftedWords, List.range_zero, List.foldl_nil, List.getD_replicate _ hp, decide_eq_false (by omega),
      Bool.false_and]
    exact BitVec.getLsbD_zero
  | succ m ih =>
    rw [shiftedWords_succ, getLsbD_putShifted n m _ (by rwa [length_shiftedWords]) hi, ih]
    by_cases hhere : n + 32 * m ≤ 32 * p + i ∧ 32 * p + i < n + 32 * m + 32
    · -- the digit comes from this word
      have hplace : 32 * m + (32 * p + i - (n + 32 * m)) = 32 * p + i - n := by omega
      rw [decide_eq_false (by omega), Bool.false_and, Bool.false_or, decide_eq_true hhere.1, Bool.true_and,
        Element.getLsbD_word a (by omega), hplace, decide_eq_true (by omega), Bool.true_and]
    · have hnone : (decide (n + 32 * m ≤ 32 * p + i)
          && (a.word m).getLsbD (32 * p + i - (n + 32 * m))) = false := by
        by_cases hle : n + 32 * m ≤ 32 * p + i
        · rw [BitVec.getLsbD_of_ge _ _ (by omega), Bool.and_false]
        · rw [decide_eq_false hle, Bool.false_and]
      have hsame : n ≤ 32 * p + i ∧ 32 * p + i < n + 32 * m
          ↔ n ≤ 32 * p + i ∧ 32 * p + i < n + 32 * (m + 1) := by omega
      rw [hnone, Bool.or_false, decide_eq_decide.2 hsame]

section Value

variable {R : Type*} [CommRing R] (x : R)

/-- The array has the value of the element times `x ^ n`. -/
theorem wordsValue_shiftedWords (a : Element w) {n : Nat} (hn : n ≤ 32 * w) :
    wordsValue x (shiftedWords a n w) = valueAt x a * x ^ n := by
  have hlt : a.toNat <<< n < 2 ^ (32 * (2 * w)) := by
    rw [Nat.shiftLeft_eq]
    have hpow : 2 ^ (32 * (2 * w)) = 2 ^ (32 * w) * 2 ^ (32 * w) := by
      rw [← Nat.pow_add]
      congr 1
      omega
    rw [hpow]
    exact Nat.mul_lt_mul_of_lt_of_le a.isLt (Nat.pow_le_pow_right (by decide) hn) (Nat.two_pow_pos _)
  have hnumber : (Element.ofWords (shiftedWords a n w) : Element (2 * w))
      = BitVec.ofNat _ (a.toNat <<< n) := by
    apply BitVec.eq_of_getLsbD_eq
    intro i hi
    have hdigit : 32 * (i / 32) + i % 32 = i := Nat.div_add_mod i 32
    rw [Element.getLsbD_ofWords (by rw [length_shiftedWords]),
      getLsbD_shiftedWords a n w (by omega) (Nat.mod_lt i (by decide)), hdigit, BitVec.getLsbD_ofNat,
      decide_eq_true hi, Bool.true_and, Nat.testBit_shiftLeft, BitVec.testBit_toNat]
    by_cases hlow : i < n + 32 * w
    · have hsame : n ≤ i ∧ i < n + 32 * w ↔ i ≥ n := by omega
      rw [decide_eq_decide.2 hsame]
    · rw [BitVec.getLsbD_of_ge a _ (by omega), Bool.and_false, Bool.and_false]
  rw [← valueAt_ofWords x (length_shiftedWords a n w).le, hnumber, valueAt_ofNat_of_lt x hlt,
    evalAt_shiftLeft, valueAt]

end Value

namespace BinaryField

variable (f : BinaryField w)

/-- The product with `x ^ k`, computed with words. -/
def shiftLeftWords (a : Element w) (k : Nat) : Element w :=
  if _h : k = 0 ∨ w = 0 then a
  else
    let step := min k (32 * w)
    shiftLeftWords (f.reduceWords (shiftedWords a step w)) (k - step)
termination_by k
decreasing_by omega

/-- One step, with words and without. -/
theorem reduceWords_shiftedWords (hw : 0 < w) (a : Element w) {n : Nat} (hn : n ≤ 32 * w) :
    f.reduceWords (shiftedWords a n w) = f.reduce (a.setWidth (32 * w + 32 * w) <<< n) := by
  have := f.charP_adjoinRoot hw
  have hlt : (a.setWidth (32 * w + 32 * w)).toNat < 2 ^ (32 * w) := by
    rw [BitVec.toNat_setWidth_of_le (by omega)]
    exact a.isLt
  apply value_injective (f := f) hw
  rw [f.value_reduceWords hw (length_shiftedWords a n w), wordsValue_shiftedWords _ a hn, value,
    valueAt_reduce (f.isRoot_root hw) hw, valueAt_shiftLeft_of_lt _ _ hlt (by omega),
    valueAt_setWidth _ (by omega)]

theorem shiftLeftWords_eq_shiftLeft (a : Element w) (k : Nat) :
    f.shiftLeftWords a k = f.shiftLeft a k := by
  fun_induction f.shiftLeft a k with
  | case1 a k h => rw [shiftLeftWords, dif_pos h]
  | case2 a k h step ih =>
    have hw : 0 < w := by omega
    rw [shiftLeftWords, dif_neg h]
    simp only [f.reduceWords_shiftedWords hw a (Nat.min_le_right k (32 * w))]
    exact ih

/-! ## To the left -/

section Positive

variable (hw : 0 < w)
include hw

theorem value_shiftLeft (a : Element w) (n : Nat) :
    f.value (f.shiftLeft a n) = f.value a * AdjoinRoot.root f.polynomial ^ n := by
  have := f.charP_adjoinRoot hw
  exact valueAt_shiftLeft (f.isRoot_root hw) hw a n

theorem shiftLeft_eq_iterate (a : Element w) (n : Nat) :
    f.shiftLeft a n = (timesX f.modulus)^[n] a := by
  apply value_injective (f := f) hw
  rw [f.value_shiftLeft hw, f.value_iterate_timesX hw]

theorem shiftLeft_shiftLeft (a : Element w) (i j : Nat) :
    f.shiftLeft (f.shiftLeft a i) j = f.shiftLeft a (i + j) := by
  apply value_injective (f := f) hw
  rw [f.value_shiftLeft hw, f.value_shiftLeft hw, f.value_shiftLeft hw, pow_add, mul_assoc]

theorem shiftLeft_eq_multiply (a : Element w) (n : Nat) :
    f.shiftLeft a n = f.multiply a (f.shiftLeft Element.one n) := by
  apply value_injective (f := f) hw
  rw [value_multiply hw, f.value_shiftLeft hw, f.value_shiftLeft hw, value_one hw, one_mul]

/-- The remainder is the only polynomial of its degree with the right value. -/
theorem toPolynomial_shiftLeft (a : Element w) (n : Nat) :
    toPolynomial (f.shiftLeft a n) = (toPolynomial a * X ^ n) %ₘ f.polynomial := by
  have hdvd : f.polynomial ∣ toPolynomial a * X ^ n - toPolynomial (f.shiftLeft a n) := by
    rw [← AdjoinRoot.mk_eq_zero, map_sub, map_mul, map_pow, mk_toPolynomial, mk_toPolynomial,
      AdjoinRoot.mk_X, f.value_shiftLeft hw, sub_self]
  obtain ⟨q, hq⟩ := hdvd
  have hdegree : (toPolynomial (f.shiftLeft a n)).degree < f.polynomial.degree := by
    rw [f.degree_polynomial hw]
    exact degree_toPolynomial_lt _
  refine (div_modByMonic_unique q _ (f.monic_polynomial hw) ⟨?_, hdegree⟩).2.symm
  linear_combination -hq

end Positive

/-- The table goes on by multiplying by `x`. -/
theorem getElem?_timesPowers (modulus : UInt32) (k : Nat) (a : Element w) (i : Nat) :
    (timesPowers modulus k a)[i]? = if i < k then some ((timesX modulus)^[i] a) else none := by
  induction k generalizing a i with
  | zero => simp [timesPowers]
  | succ k ih =>
    cases i with
    | zero => simp [timesPowers]
    | succ i => simp [timesPowers, ih]

theorem power?_eq (i : Nat) :
    f.power? i = if i < 2 * (32 * w) then some ((timesX f.modulus)^[i] Element.one) else none := by
  rw [power?, f.powers_eq, List.getElem?_toArray, getElem?_timesPowers]

/-- For every width and modulus and every `n`, a shift to the left by `n` places is `n` times the
    multiplication by `x`: the remainder of the product with `X ^ n`.  Shifts follow one another by adding the
    places, a shift is the product with the shifted one, and the table has the shifted ones as far as it goes.
    Steps made with words give the same. -/
theorem shiftLeft_multiplies (modulus : UInt32) (a : Element w) (n : Nat) :
    (ofModulus modulus).shiftLeft a n = (timesX modulus)^[n] a
      ∧ toPolynomial ((ofModulus modulus).shiftLeft a n)
        = (toPolynomial a * X ^ n) %ₘ (X ^ (32 * w) + toPolynomial modulus.toBitVec)
      ∧ (∀ i j, (ofModulus modulus).shiftLeft ((ofModulus modulus).shiftLeft a i) j
        = (ofModulus modulus).shiftLeft a (i + j))
      ∧ (ofModulus modulus).shiftLeft a n
        = (ofModulus modulus).multiply a ((ofModulus modulus).shiftLeft Element.one n)
      ∧ (ofModulus modulus : BinaryField w).power? n
        = (if n < 2 * (32 * w) then some ((ofModulus modulus).shiftLeft Element.one n) else none)
      ∧ (ofModulus modulus).shiftLeft a n = (ofModulus modulus).shiftLeftWords a n := by
  have hwords := ((ofModulus modulus).shiftLeftWords_eq_shiftLeft a n).symm
  by_cases hw : w = 0
  · -- there is only one element, and its polynomial is zero
    subst hw
    have hone : ∀ c d : Element 0, c = d := fun c d => BitVec.eq_of_toNat_eq (by omega)
    have hzero : ∀ c : Element 0, toPolynomial c = 0 := by
      intro c
      rw [hone c 0]
      exact valueAt_zero X _
    refine ⟨hone _ _, ?_, fun _ _ => hone _ _, hone _ _, ?_, hwords⟩
    · rw [hzero, hzero, zero_mul, zero_modByMonic]
    · rw [power?_eq, if_neg (by omega), if_neg (by omega)]
  · have hpos : 0 < w := Nat.pos_of_ne_zero hw
    refine ⟨shiftLeft_eq_iterate _ hpos a n, toPolynomial_shiftLeft _ hpos a n,
      shiftLeft_shiftLeft _ hpos a, shiftLeft_eq_multiply _ hpos a n, ?_, hwords⟩
    rw [power?_eq, shiftLeft_eq_iterate _ hpos]

/-! ## To the right and back -/

/-- A shift to the left that pushes nothing out only moves the coefficients. -/
theorem shiftLeft_eq_of_lt (hw : 0 < w) {a : Element w} {n : Nat} (h : a.toNat < 2 ^ (32 * w - n))
    (hn : n ≤ 32 * w) : f.shiftLeft a n = a <<< n := by
  have := f.charP_adjoinRoot hw
  apply value_injective (f := f) hw
  rw [f.value_shiftLeft hw, value, value, valueAt_shiftLeft_of_lt _ a h (by omega)]

theorem shiftLeft_zero (hw : 0 < w) (n : Nat) : f.shiftLeft 0 n = 0 := by
  have hzero : f.value 0 = 0 := valueAt_zero _ _
  apply value_injective (f := f) hw
  rw [f.value_shiftLeft hw, hzero, zero_mul]

/-- A shift to the right undoes a shift to the left that pushes nothing out. -/
theorem shiftRight_shiftLeft (hw : 0 < w) {a : Element w} {n : Nat}
    (h : ∀ d, a.degree? = some d → d + n < 32 * w) : (f.shiftLeft a n).shiftRight n = a := by
  rcases Nat.lt_or_ge (32 * w) n with hall | hn
  · -- only zero has so much room
    have hzero : a = 0 := by
      cases hdegree : a.degree? with
      | none => exact a.degree?_eq_none_iff.1 hdegree
      | some d => exact absurd (h d hdegree) (by omega)
    rw [hzero, f.shiftLeft_zero hw, Element.shiftRight_eq_ushiftRight]
    exact BitVec.zero_ushiftRight
  · have hnone : ∀ i, 32 * w - n ≤ i → a.getLsbD i = false := fun i hi =>
      a.getLsbD_of_degree?_lt (fun d hd => Nat.lt_sub_of_add_lt (h d hd)) hi
    have hlt : a.toNat < 2 ^ (32 * w - n) := Nat.lt_pow_two_of_testBit _ hnone
    apply BitVec.eq_of_getLsbD_eq
    intro i hi
    rw [f.shiftLeft_eq_of_lt hw hlt hn, Element.getLsbD_shiftRight, BitVec.getLsbD_shiftLeft,
      Nat.add_sub_cancel]
    by_cases hroom : i + n < 32 * w
    · simp [hroom]
    · rw [hnone i (by omega), Bool.and_false]

/-- What a shift to the right drops is what is missing when it is undone. -/
theorem shiftLeft_shiftRight_xor_lowest (hw : 0 < w) (a : Element w) (n : Nat) :
    f.shiftLeft (a.shiftRight n) n ^^^ a.lowest n = a := by
  have := f.charP_adjoinRoot hw
  apply value_injective (f := f) hw
  rw [value_xor hw, f.value_shiftLeft hw, Element.shiftRight_eq_ushiftRight, value, value, value, valueAt,
    valueAt, valueAt, BitVec.toNat_ushiftRight, Element.toNat_lowest, evalAt_split _ a.toNat n, add_comm]

/-- A shift to the right moves each coefficient down and drops the lowest.  So shifts follow one another by
    adding the places, a shift to the left is undone if nothing is pushed out, and a shift to the right is undone
    up to the coefficients that are dropped. -/
theorem shiftRight_divides (modulus : UInt32) (a : Element w) (n : Nat) :
    (∀ i, (a.shiftRight n).coefficient? i
        = if i < 32 * w then some ((a.coefficient? (i + n)).getD false) else none)
      ∧ (∀ i j, (a.shiftRight i).shiftRight j = a.shiftRight (i + j))
      ∧ ((∀ d, a.degree? = some d → d + n < 32 * w) →
        ((ofModulus modulus).shiftLeft a n).shiftRight n = a)
      ∧ a = (ofModulus modulus).shiftLeft (a.shiftRight n) n ^^^ a.lowest n
      ∧ ∀ i, (a.lowest n).coefficient? i = (a.coefficient? i).map (decide (i < n) && ·) := by
  refine ⟨a.coefficient?_shiftRight n, a.shiftRight_shiftRight, ?_⟩
  by_cases hw : w = 0
  · -- there is only one element
    subst hw
    have hone : ∀ c d : Element 0, c = d := fun c d => BitVec.eq_of_toNat_eq (by omega)
    exact ⟨fun _ => hone _ _, hone _ _, a.coefficient?_lowest n⟩
  · have hpos : 0 < w := Nat.pos_of_ne_zero hw
    exact ⟨shiftRight_shiftLeft _ hpos, (shiftLeft_shiftRight_xor_lowest _ hpos a n).symm,
      a.coefficient?_lowest n⟩

/-- A polynomial of degree 23 has room for 33 places below `x ^ 64`. -/
theorem shiftRight_divides_thirtyThree :
    (∀ d, (Element.ofLowBits 0xff00ff : Element 2).degree? = some d → d + 33 < 32 * 2)
      ∧ ((ofModulus 0x1b).shiftLeft (Element.ofLowBits 0xff00ff : Element 2) 33).shiftRight 33
        = Element.ofLowBits 0xff00ff := by
  have hdegree : (Element.ofLowBits 0xff00ff : Element 2).degree? = some 23 := by decide
  have hroom : ∀ d, (Element.ofLowBits 0xff00ff : Element 2).degree? = some d → d + 33 < 32 * 2 := by
    intro d hd
    rw [hdegree] at hd
    cases hd
    decide
  exact ⟨hroom, (shiftRight_divides 0x1b _ 33).2.2.1 hroom⟩

end BinaryField

end OneTimeChannel.Gf2

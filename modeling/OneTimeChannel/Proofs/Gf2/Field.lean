/-
  What the arithmetic of a binary field computes.

  Let `x` be a zero of the reducing polynomial in any ring of characteristic two.  Then the operations
  of the field are those of the ring, seen through the value of an element at `x`:

    timesX            multiplication by `x`
    fold, reduce      the value is kept, whatever the width
    multiply          the product of the values
    shiftLeft k       multiplication by `x ^ k`

  No operation has to be compared with a division of polynomials; that the values determine the
  element is a matter of degrees, and comes in only where the ring is chosen.
-/
import OneTimeChannel.Gf2.BinaryField
import OneTimeChannel.Proofs.Gf2.Evaluation

namespace OneTimeChannel.Gf2

variable {R : Type*} [CommRing R] {w : Nat}

/-- The value at `x` of the polynomial with the coefficients of a bit vector. -/
def valueAt (x : R) {n : Nat} (a : BitVec n) : R := evalAt x a.toNat

namespace BinaryField

/-- `x` is a zero of the reducing polynomial. -/
def IsRoot (f : BinaryField w) (x : R) : Prop := x ^ (32 * w) = evalAt x f.modulus.toNat

end BinaryField

theorem valueAt_ofNat_of_lt (x : R) {n v : Nat} (h : v < 2 ^ n) :
    valueAt x (BitVec.ofNat n v) = evalAt x v := by
  rw [valueAt, BitVec.toNat_ofNat, Nat.mod_eq_of_lt h]

@[simp] theorem valueAt_zero (x : R) (n : Nat) : valueAt x 0#n = 0 := by
  simp [valueAt]

theorem valueAt_setWidth (x : R) {n k : Nat} (h : n ≤ k) (a : BitVec n) :
    valueAt x (a.setWidth k) = valueAt x a := by
  rw [valueAt, valueAt, BitVec.toNat_setWidth_of_le h]

theorem valueAt_ofLowBits (x : R) (hw : 0 < w) (v : UInt32) :
    valueAt x (Element.ofLowBits v : Element w) = evalAt x v.toNat := by
  refine valueAt_ofNat_of_lt x (Nat.lt_of_lt_of_le v.toNat_lt ?_)
  exact Nat.pow_le_pow_right (by decide) (by omega)

theorem valueAt_one (x : R) (hw : 0 < w) : valueAt x (Element.one : Element w) = 1 := by
  rw [Element.one, valueAt_ofLowBits x hw]
  exact evalAt_one x

/-- A product is its two halves. -/
theorem valueAt_halves (x : R) {n : Nat} (p : BitVec (n + n)) :
    valueAt x p = valueAt x (p.setWidth n) + valueAt x (p.extractLsb' n n) * x ^ n := by
  have hhigh : (p.extractLsb' n n).toNat = p.toNat >>> n := by
    rw [BitVec.extractLsb'_toNat, Nat.shiftRight_eq_div_pow]
    refine Nat.mod_eq_of_lt (Nat.div_lt_of_lt_mul ?_)
    rw [← Nat.pow_add]
    exact p.isLt
  rw [valueAt, valueAt, valueAt, BitVec.toNat_setWidth, hhigh]
  exact evalAt_split x p.toNat n

variable [CharP R 2]

theorem valueAt_xor (x : R) {n : Nat} (a b : BitVec n) :
    valueAt x (a ^^^ b) = valueAt x a + valueAt x b := by
  rw [valueAt, BitVec.toNat_xor, evalAt_xor, valueAt, valueAt]

/-- A shift drops the highest digits. -/
theorem valueAt_shiftLeft (x : R) {n : Nat} (a : BitVec n) {k : Nat} (h : k ≤ n) :
    valueAt x (a <<< k) = valueAt x a * x ^ k + evalAt x (a.toNat >>> (n - k)) * x ^ n := by
  have hhigh : (a.toNat <<< k) >>> n = a.toNat >>> (n - k) := by
    have hn : (a.toNat <<< k) >>> (k + (n - k)) = a.toNat >>> (n - k) := by
      rw [Nat.shiftRight_add, Nat.shiftLeft_shiftRight]
    rwa [Nat.add_sub_cancel' h] at hn
  rw [valueAt, BitVec.toNat_shiftLeft, evalAt_mod, hhigh, evalAt_shiftLeft, valueAt]

/-- A shift within the width keeps all digits. -/
theorem valueAt_shiftLeft_of_lt (x : R) {n : Nat} (a : BitVec n) {k m : Nat} (h : a.toNat < 2 ^ m)
    (hk : m + k ≤ n) : valueAt x (a <<< k) = valueAt x a * x ^ k := by
  have hnone : a.toNat >>> (n - k) = 0 := by
    rw [Nat.shiftRight_eq_div_pow]
    refine Nat.div_eq_of_lt (Nat.lt_of_lt_of_le h ?_)
    exact Nat.pow_le_pow_right (by decide) (by omega)
  rw [valueAt_shiftLeft x a (by omega), hnone, evalAt_zero, zero_mul, add_zero]

/-! ## Powers of `x` -/

theorem valueAt_timesX {x : R} {f : BinaryField w} (hx : f.IsRoot x) (hw : 0 < w) (a : Element w) :
    valueAt x (timesX f.modulus a) = valueAt x a * x := by
  have hmsb : a.toNat >>> (32 * w - 1) = a.msb.toNat := by
    rw [BitVec.msb_eq_decide, Nat.shiftRight_eq_div_pow]
    have hlt := a.isLt
    have hpow : 2 ^ (32 * w) = 2 * 2 ^ (32 * w - 1) := by
      rw [← Nat.pow_succ', Nat.succ_eq_add_one, Nat.sub_add_cancel (by omega)]
    rw [hpow] at hlt
    by_cases h : 2 ^ (32 * w - 1) ≤ a.toNat
    · rw [decide_eq_true h, Bool.toNat_true]
      exact Nat.div_eq_of_lt_le (by omega) (by omega)
    · rw [decide_eq_false h, Bool.toNat_false]
      exact Nat.div_eq_of_lt (by omega)
  rw [timesX, valueAt_xor, valueAt_shiftLeft x a (by omega), hmsb, pow_one, hx]
  cases a.msb
  · simp
  · simp [valueAt_ofLowBits x hw, add_assoc, CharTwo.add_self_eq_zero]

theorem valueAt_getElem_timesPowers {x : R} {f : BinaryField w} (hx : f.IsRoot x) (hw : 0 < w)
    (a : Element w) {k i : Nat} (hi : i < k) :
    ((timesPowers f.modulus k a)[i]?).map (valueAt x) = some (valueAt x a * x ^ i) := by
  induction k generalizing a i with
  | zero => omega
  | succ k ih =>
    rw [timesPowers]
    cases i with
    | zero => simp
    | succ i =>
      rw [List.getElem?_cons_succ, ih (timesX f.modulus a) (by omega), valueAt_timesX hx hw]
      congr 1
      ring

namespace BinaryField

variable {f : BinaryField w} {x : R}

/-- The table holds the powers of `x`. -/
theorem valueAt_highPower (hx : f.IsRoot x) (hw : 0 < w) {j : Nat} (hj : j < 32 * w) :
    valueAt x (f.highPower j) = x ^ (32 * w + j) := by
  have hget := valueAt_getElem_timesPowers hx hw (Element.one : Element w)
    (show 32 * w + j < 2 * (32 * w) by omega)
  obtain ⟨a, ha, hval⟩ := Option.map_eq_some_iff.1 hget
  rw [valueAt_one x hw, one_mul] at hval
  rw [highPower, f.powers_eq, Array.getD_eq_getD_getElem?, List.getElem?_toArray, ha]
  exact hval

/-! ## Folding -/

theorem valueAt_foldBelow (hx : f.IsRoot x) (hw : 0 < w) (high : Element w) {k : Nat}
    (hk : k ≤ 32 * w) :
    valueAt x (f.foldBelow high k) = evalAt x (high.toNat % 2 ^ k) * x ^ (32 * w) := by
  induction k with
  | zero => simp [foldBelow, Nat.mod_one]
  | succ k ih =>
    rw [foldBelow, valueAt_xor, ih (by omega), evalAt_mod_succ, add_mul]
    congr 1
    rw [← BitVec.testBit_toNat]
    cases high.toNat.testBit k
    · simp
    · simp only [cond_true, if_true]
      rw [valueAt_highPower hx hw (by omega), pow_add, mul_comm]

theorem valueAt_fold (hx : f.IsRoot x) (hw : 0 < w) (high : Element w) :
    valueAt x (f.fold high) = valueAt x high * x ^ (32 * w) := by
  rw [fold, valueAt_foldBelow hx hw high (Nat.le_refl _), Nat.mod_eq_of_lt high.isLt, valueAt]

/-- Reducing keeps the value. -/
theorem valueAt_reduce (hx : f.IsRoot x) (hw : 0 < w) (p : BitVec (32 * w + 32 * w)) :
    valueAt x (f.reduce p) = valueAt x p := by
  rw [reduce, valueAt_xor, valueAt_fold hx hw, valueAt_halves x p, add_comm]

/-! ## Products and shifts -/

theorem valueAt_carrylessBelow (x : R) {n : Nat} (a b : BitVec n) {k : Nat} (hk : k ≤ n) :
    valueAt x (carrylessBelow a b k) = valueAt x a * evalAt x (b.toNat % 2 ^ k) := by
  induction k with
  | zero => simp [carrylessBelow, Nat.mod_one]
  | succ k ih =>
    rw [carrylessBelow, valueAt_xor, ih (by omega), evalAt_mod_succ, mul_add]
    congr 1
    rw [← BitVec.testBit_toNat]
    cases b.toNat.testBit k
    · simp
    · simp only [cond_true, if_true]
      have hlt : (a.setWidth (n + n)).toNat < 2 ^ n := by
        rw [BitVec.toNat_setWidth_of_le (by omega)]
        exact a.isLt
      rw [valueAt_shiftLeft_of_lt x _ hlt (by omega), valueAt_setWidth x (by omega)]

theorem valueAt_carrylessProduct (x : R) {n : Nat} (a b : BitVec n) :
    valueAt x (carrylessProduct a b) = valueAt x a * valueAt x b := by
  rw [carrylessProduct, valueAt_carrylessBelow x a b (Nat.le_refl n), Nat.mod_eq_of_lt b.isLt]
  rfl

theorem valueAt_multiply (hx : f.IsRoot x) (hw : 0 < w) (a b : Element w) :
    valueAt x (f.multiply a b) = valueAt x a * valueAt x b := by
  rw [multiply, valueAt_reduce hx hw, valueAt_carrylessProduct]

theorem valueAt_shiftLeft (hx : f.IsRoot x) (hw : 0 < w) (a : Element w) (k : Nat) :
    valueAt x (f.shiftLeft a k) = valueAt x a * x ^ k := by
  fun_induction f.shiftLeft a k with
  | case1 a k h =>
    obtain rfl : k = 0 := by omega
    rw [pow_zero, mul_one]
  | case2 a k h step ih =>
    have hlt : (a.setWidth (32 * w + 32 * w)).toNat < 2 ^ (32 * w) := by
      rw [BitVec.toNat_setWidth_of_le (by omega)]
      exact a.isLt
    have hstep : step ≤ 32 * w := Nat.min_le_right _ _
    have hk : step + (k - step) = k := Nat.add_sub_cancel' (Nat.min_le_left _ _)
    rw [ih, valueAt_reduce hx hw, valueAt_shiftLeft_of_lt x _ hlt (by omega),
      valueAt_setWidth x (by omega), mul_assoc, ← pow_add, hk]

end BinaryField

end OneTimeChannel.Gf2

/-
  Multiplication by table look-up is multiplication.

  A table that spans `basis 0`, …, `basis (k - 1)` is linear: the value of entry `v` is the sum of the
  values selected by the digits of `v` (`valueAt_spanTable`).  Both tables of a fixed factor are of this
  kind, so that one Horner step takes the value `acc` to `acc * x ^ c + factor * chunk`, and all steps
  together give the product.
-/
import OneTimeChannel.Gf2.FixedFactor
import OneTimeChannel.Proofs.Gf2.Field

namespace OneTimeChannel.Gf2

variable {R : Type*} [CommRing R] [CharP R 2] {w : Nat} {x : R}

/-- The highest digit of an entry says whether the last basis element is in it. -/
theorem getD_spanTable_succ (basis : Nat → Element w) {k v : Nat} (hv : v < 2 ^ (k + 1)) :
    (spanTable basis (k + 1)).getD v 0
      = (spanTable basis k).getD (v % 2 ^ k) 0 ^^^ (bif v.testBit k then basis k else 0) := by
  have hsize : (spanTable basis k).size = 2 ^ k := by rw [size_spanTable, Nat.one_shiftLeft]
  rw [Nat.pow_succ] at hv
  rw [Array.getD_eq_getD_getElem?, spanTable]
  by_cases hlow : v < 2 ^ k
  · -- the lower half is the table of one basis element less
    rw [Array.getElem?_append_left (by omega), ← Array.getD_eq_getD_getElem?, Nat.mod_eq_of_lt hlow,
      Nat.testBit_lt_two_pow hlow, cond_false]
    exact (BitVec.xor_zero).symm
  · -- the upper half adds the next basis element
    have hmod : v % 2 ^ k = v - 2 ^ k := by
      rw [Nat.mod_eq_sub_mod (by omega), Nat.mod_eq_of_lt (by omega)]
    have hbit : v.testBit k = true := by
      rw [Nat.testBit_eq_decide_div_mod_eq, Nat.div_eq_of_lt_le (k := 1) (by omega) (by omega)]
      rfl
    have hget : (spanTable basis k)[v - 2 ^ k]? = some ((spanTable basis k).getD (v - 2 ^ k) 0) := by
      rw [Array.getD_eq_getD_getElem?, Array.getElem?_eq_getElem (by omega), Option.getD_some]
    rw [Array.getElem?_append_right (by omega), hsize, Array.getElem?_map, hget, hmod, hbit, cond_true]
    exact BitVec.xor_comm _ _

/-- The entries of a table whose basis has the values `y`, `y * x`, `y * x ^ 2`, … -/
theorem valueAt_spanTable {basis : Nat → Element w} {y : R} {k : Nat}
    (hbasis : ∀ j, j < k → valueAt x (basis j) = y * x ^ j) {v : Nat} (hv : v < 2 ^ k) :
    valueAt x ((spanTable basis k).getD v 0) = y * evalAt x v := by
  induction k generalizing v with
  | zero =>
    obtain rfl : v = 0 := by omega
    simp [spanTable]
  | succ k ih =>
    have hdigits : evalAt x v = evalAt x (v % 2 ^ k) + if v.testBit k then x ^ k else 0 := by
      rw [← evalAt_mod_succ, Nat.mod_eq_of_lt hv]
    have hrest : v % 2 ^ k < 2 ^ k := Nat.mod_lt _ (by positivity)
    rw [getD_spanTable_succ basis hv, valueAt_xor, ih (fun j hj => hbasis j (by omega)) hrest, hdigits,
      mul_add]
    cases v.testBit k
    · simp
    · simp [hbasis k (by omega)]

namespace FixedFactor

variable {m : FixedFactor w}

theorem chunk_bits_le (hw : 0 < w) : m.chunk.bits ≤ 32 * w := by
  cases m.chunk <;> simp only [ChunkSize.bits] <;> omega

/-- Chunks fill the operand. -/
theorem chunk_bits_mul (m : FixedFactor w) : m.chunk.bits * (32 * w / m.chunk.bits) = 32 * w := by
  cases m.chunk <;> simp only [ChunkSize.bits] <;> omega

theorem valueAt_products (hx : m.field.IsRoot x) (hw : 0 < w) {v : Nat} (hv : v < 2 ^ m.chunk.bits) :
    valueAt x (m.products.getD v 0) = valueAt x m.factor * evalAt x v := by
  rw [m.products_eq]
  exact valueAt_spanTable (fun j _ => BinaryField.valueAt_shiftLeft hx hw m.factor j) hv

theorem valueAt_overflows (hx : m.field.IsRoot x) (hw : 0 < w) {v : Nat} (hv : v < 2 ^ m.chunk.bits) :
    valueAt x (m.overflows.getD v 0) = x ^ (32 * w) * evalAt x v := by
  have hc : m.chunk.bits ≤ 32 * w := chunk_bits_le hw
  rw [m.overflows_eq]
  refine valueAt_spanTable (fun j hj => ?_) hv
  rw [BinaryField.valueAt_highPower hx hw (by omega), pow_add]

/-- One Horner step. -/
theorem valueAt_step (hx : m.field.IsRoot x) (hw : 0 < w) (acc : Element w) {chunk : Nat}
    (hchunk : chunk < 2 ^ m.chunk.bits) :
    valueAt x (m.step acc chunk)
      = valueAt x acc * x ^ m.chunk.bits + valueAt x m.factor * evalAt x chunk := by
  have hc : m.chunk.bits ≤ 32 * w := chunk_bits_le hw
  have htop : (acc >>> (32 * w - m.chunk.bits)).toNat = acc.toNat >>> (32 * w - m.chunk.bits) :=
    BitVec.toNat_ushiftRight _ _
  have hlt : acc.toNat >>> (32 * w - m.chunk.bits) < 2 ^ m.chunk.bits := by
    rw [Nat.shiftRight_eq_div_pow]
    refine Nat.div_lt_of_lt_mul ?_
    rw [← Nat.pow_add, Nat.sub_add_cancel hc]
    exact acc.isLt
  -- what the shift pushes out comes back from the overflow table
  rw [step, valueAt_xor, valueAt_xor, valueAt_shiftLeft x acc hc, htop, valueAt_overflows hx hw hlt,
    valueAt_products hx hw hchunk, mul_comm (x ^ (32 * w)), add_assoc (valueAt x acc * _),
    CharTwo.add_self_eq_zero, add_zero]

theorem valueAt_horner (hx : m.field.IsRoot x) (hw : 0 < w) (a : Element w) (k : Nat)
    (acc : Element w) :
    valueAt x (m.horner a k acc)
      = valueAt x acc * x ^ (m.chunk.bits * k)
        + valueAt x m.factor * evalAt x (a.toNat % 2 ^ (m.chunk.bits * k)) := by
  induction k generalizing acc with
  | zero => simp [horner, Nat.mod_one]
  | succ k ih =>
    have hchunk : (a.extractLsb' (m.chunk.bits * k) m.chunk.bits).toNat
        = a.toNat >>> (m.chunk.bits * k) % 2 ^ m.chunk.bits := by
      rw [BitVec.extractLsb'_toNat]
    have hlt : a.toNat >>> (m.chunk.bits * k) % 2 ^ m.chunk.bits < 2 ^ m.chunk.bits :=
      Nat.mod_lt _ (by positivity)
    -- the chunk and the digits below it are the digits below the next chunk
    have hlow : a.toNat % 2 ^ (m.chunk.bits * (k + 1)) % 2 ^ (m.chunk.bits * k)
        = a.toNat % 2 ^ (m.chunk.bits * k) :=
      Nat.mod_mod_of_dvd _ (pow_dvd_pow 2 (Nat.mul_le_mul_left _ (Nat.le_succ k)))
    have hhigh : (a.toNat % 2 ^ (m.chunk.bits * (k + 1))) >>> (m.chunk.bits * k)
        = a.toNat >>> (m.chunk.bits * k) % 2 ^ m.chunk.bits := by
      rw [Nat.shiftRight_eq_div_pow, Nat.shiftRight_eq_div_pow, Nat.mul_succ, Nat.pow_add,
        Nat.mod_mul_right_div_self]
    rw [horner, ih, hchunk, valueAt_step hx hw acc hlt,
      evalAt_split x (a.toNat % 2 ^ (m.chunk.bits * (k + 1))) (m.chunk.bits * k), hlow, hhigh,
      Nat.mul_succ, pow_add]
    ring

/-- The product with the factor. -/
theorem valueAt_times (hx : m.field.IsRoot x) (hw : 0 < w) (a : Element w) :
    valueAt x (m.times a) = valueAt x m.factor * valueAt x a := by
  have hzero : valueAt x (0 : Element w) = 0 := valueAt_zero x (32 * w)
  rw [times, valueAt_horner hx hw, chunk_bits_mul, Nat.mod_eq_of_lt a.isLt, hzero, zero_mul, zero_add]
  rfl

end FixedFactor

end OneTimeChannel.Gf2

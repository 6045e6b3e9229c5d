/-
  The laws of multiplication.

  An element is known by its value in the quotient ring of the reducing polynomial, since its degree is
  too small for two elements to agree there (`value_injective`).  Sums and products of elements have the sums
  and products of their values.  So the laws of commutative rings hold for every modulus.

  What depends on the modulus is whether a product can be zero.  For the five fields in use the reducing
  polynomial is irreducible, so the quotient ring is a field and the product of two elements is zero
  only if one of them is.  Multiplication by an element that is not zero is then injective on a finite
  set, hence onto, and what it sends to one is the inverse.
-/
import OneTimeChannel.Proofs.Gf2.Irreducible
import OneTimeChannel.Proofs.Gf2.Tables

namespace OneTimeChannel.Gf2

/-! ## Every modulus -/

namespace BinaryField

variable {w : Nat} (f : BinaryField w)

/-- The value of an element at the zero that the reducing polynomial has in its quotient ring. -/
noncomputable def value (a : Element w) : AdjoinRoot f.polynomial :=
  valueAt (AdjoinRoot.root f.polynomial) a

variable {f} (hw : 0 < w)
include hw

theorem value_xor (a b : Element w) : f.value (a ^^^ b) = f.value a + f.value b := by
  have := f.charP_adjoinRoot hw
  exact valueAt_xor _ a b

theorem value_multiply (a b : Element w) : f.value (f.multiply a b) = f.value a * f.value b := by
  have := f.charP_adjoinRoot hw
  exact valueAt_multiply (f.isRoot_root hw) hw a b

theorem value_one : f.value Element.one = 1 := valueAt_one _ hw

theorem value_eq_zero_iff {a : Element w} : f.value a = 0 ↔ a = 0 := by
  constructor
  · exact f.eq_zero_of_valueAt_root_eq_zero hw
  · rintro rfl
    exact valueAt_zero _ _

/-- Different elements have different values. -/
theorem value_injective : Function.Injective f.value := by
  intro a b hab
  have := f.charP_adjoinRoot hw
  have hsum : f.value (a ^^^ b) = 0 := by
    rw [value_xor hw, hab, CharTwo.add_self_eq_zero]
  exact BitVec.xor_eq_zero_iff.1 ((value_eq_zero_iff hw).1 hsum)

theorem multiply_comm (a b : Element w) : f.multiply a b = f.multiply b a := by
  apply value_injective (f := f) hw
  rw [value_multiply hw, value_multiply hw, mul_comm]

theorem multiply_assoc (a b c : Element w) :
    f.multiply (f.multiply a b) c = f.multiply a (f.multiply b c) := by
  apply value_injective (f := f) hw
  simp only [value_multiply hw, mul_assoc]

theorem multiply_xor (a b c : Element w) :
    f.multiply a (b ^^^ c) = f.multiply a b ^^^ f.multiply a c := by
  apply value_injective (f := f) hw
  simp only [value_multiply hw, value_xor hw, mul_add]

theorem one_multiply (a : Element w) : f.multiply Element.one a = a := by
  apply value_injective (f := f) hw
  rw [value_multiply hw, value_one hw, one_mul]

end BinaryField

/-- The tables of a factor multiply by it. -/
theorem FixedFactor.times_eq_multiply {w : Nat} (m : FixedFactor w) (hw : 0 < w) (a : Element w) :
    m.times a = m.field.multiply m.factor a := by
  have := m.field.charP_adjoinRoot hw
  apply BinaryField.value_injective (f := m.field) hw
  rw [BinaryField.value_multiply hw]
  exact m.valueAt_times (m.field.isRoot_root hw) hw a

/-! ## The five fields -/

namespace Width

variable (k : Width)

/-- A product is zero only if one of its factors is. -/
theorem multiply_eq_zero_iff {a b : Element k.words} :
    k.field.multiply a b = 0 ↔ a = 0 ∨ b = 0 := by
  have : Fact (Irreducible k.field.polynomial) := ⟨k.irreducible_polynomial⟩
  have hw := k.words_pos
  rw [← BinaryField.value_eq_zero_iff hw, BinaryField.value_multiply hw, mul_eq_zero,
    BinaryField.value_eq_zero_iff hw, BinaryField.value_eq_zero_iff hw]

/-- Multiplying by an element loses nothing unless the element is zero. -/
theorem injective_multiply_iff {a : Element k.words} :
    Function.Injective (k.field.multiply a) ↔ a ≠ 0 := by
  have hw := k.words_pos
  constructor
  · rintro hinjective rfl
    -- zero times one and zero times zero are the same
    have hzero : ∀ b, k.field.multiply 0 b = 0 := fun b => (multiply_eq_zero_iff k).2 (Or.inl rfl)
    have hone : (Element.one : Element k.words) = 0 :=
      hinjective ((hzero Element.one).trans (hzero 0).symm)
    have hvalue : k.field.value Element.one = 0 := (BinaryField.value_eq_zero_iff hw).2 hone
    have : Fact (Irreducible k.field.polynomial) := ⟨k.irreducible_polynomial⟩
    rw [BinaryField.value_one hw] at hvalue
    exact one_ne_zero hvalue
  · intro hne b c hbc
    have hsum : k.field.multiply a (b ^^^ c) = 0 := by
      rw [BinaryField.multiply_xor hw, hbc]
      exact BitVec.xor_self
    exact BitVec.xor_eq_zero_iff.1 (((multiply_eq_zero_iff k).1 hsum).resolve_left hne)

/-- The elements that are not zero are those with an inverse. -/
theorem exists_inverse_iff {a : Element k.words} :
    (∃ b, k.field.multiply a b = Element.one) ↔ a ≠ 0 := by
  rw [← injective_multiply_iff]
  constructor
  · rintro ⟨b, hb⟩ c d hcd
    have hcancel : ∀ e, k.field.multiply b (k.field.multiply a e) = e := by
      intro e
      have hw := k.words_pos
      rw [← BinaryField.multiply_assoc hw, BinaryField.multiply_comm hw b a, hb,
        BinaryField.one_multiply hw]
    rw [← hcancel c, ← hcancel d, hcd]
  · intro hinjective
    have : Finite (Element k.words) := Finite.of_injective BitVec.toFin fun _ _ => BitVec.eq_of_toFin_eq
    exact Finite.surjective_of_injective hinjective Element.one

/-- Each of the five fields is a field: multiplication is commutative and associative, it distributes
    over addition, one is neutral, nothing but zero divides zero, multiplying by anything else can be
    undone, and it is undone by multiplying. -/
theorem field_laws (a b c : Element k.words) :
    k.field.multiply a b = k.field.multiply b a
      ∧ k.field.multiply (k.field.multiply a b) c = k.field.multiply a (k.field.multiply b c)
      ∧ k.field.multiply a (b ^^^ c) = k.field.multiply a b ^^^ k.field.multiply a c
      ∧ k.field.multiply Element.one a = a
      ∧ (k.field.multiply a b = 0 ↔ a = 0 ∨ b = 0)
      ∧ (Function.Injective (k.field.multiply a) ↔ a ≠ 0)
      ∧ ((∃ inverse, k.field.multiply a inverse = Element.one) ↔ a ≠ 0) := by
  have hw := k.words_pos
  exact ⟨BinaryField.multiply_comm hw a b, BinaryField.multiply_assoc hw a b c,
    BinaryField.multiply_xor hw a b c, BinaryField.one_multiply hw a, multiply_eq_zero_iff k,
    injective_multiply_iff k, exists_inverse_iff k⟩

end Width

end OneTimeChannel.Gf2

/-
  What is written in digits is read back.

  A decimal number is read from its digits one by one (`valueFrom?_digits`), and a byte from the two
  digits of its high and low half (`decodePairs_encodeChars`).  Both notations use the same few
  characters, lower-case letters and digits, so no digit is taken for anything that stands between two
  fields.  What holds of all ASCII characters is found by looking at each of them (`forall_ascii`).
-/
import OneTimeChannel.Text.Decimal
import OneTimeChannel.Text.Hex
import Mathlib.Algebra.Group.Nat.Defs

namespace OneTimeChannel

/-! ## ASCII characters -/

namespace Text

/-- What the 128 characters of ASCII have in common is found by looking at each of them. -/
theorem forall_ascii {p : Char → Prop} (h : ∀ n < 128, p (Char.ofNat n)) (c : Char) (hc : c.toNat < 128) :
    p c := by
  have hp := h c.toNat hc
  rwa [Char.ofNat_toNat] at hp

theorem toNat_le_of_le {c c' : Char} (h : c ≤ c') : c.toNat ≤ c'.toNat :=
  UInt32.le_iff_toNat_le.1 h

/-- Letters and digits are ASCII characters. -/
theorem toNat_lt_of_isAlphanum {c : Char} (h : c.isAlphanum = true) : c.toNat < 128 := by
  rcases Bool.or_eq_true_iff.1 h with halpha | hdigit
  · rcases Bool.or_eq_true_iff.1 halpha with hupper | hlower
    · have hle : c ≤ 'Z' := (of_decide_eq_true hupper).2
      exact Nat.lt_of_le_of_lt (toNat_le_of_le hle) (by decide)
    · have hle : c ≤ 'z' := of_decide_eq_true (Bool.and_eq_true_iff.1 hlower).2
      exact Nat.lt_of_le_of_lt (toNat_le_of_le hle) (by decide)
  · have hle : c ≤ '9' := of_decide_eq_true (Bool.and_eq_true_iff.1 hdigit).2
    exact Nat.lt_of_le_of_lt (toNat_le_of_le hle) (by decide)

end Text

/-! ## Decimal numbers -/

namespace Decimal

/-- The ten digits. -/
theorem isDigit_digit : ∀ n < 10, (digit n).isDigit = true ∧ digitValue (digit n) = n := by decide

theorem digits_ne_nil (n : Nat) : digits n ≠ [] := by
  rw [digits]
  split
  · exact List.cons_ne_nil _ _
  · exact List.append_ne_nil_of_right_ne_nil _ (List.cons_ne_nil _ _)

theorem isDigit_of_mem_digits {n : Nat} {c : Char} (h : c ∈ digits n) : c.isDigit = true := by
  fun_induction digits n with
  | case1 n hsmall =>
    rw [List.mem_singleton] at h
    rw [h]
    exact (isDigit_digit n hsmall).1
  | case2 n hlarge ih =>
    rw [List.mem_append, List.mem_singleton] at h
    rcases h with h | rfl
    · exact ih h
    · exact (isDigit_digit (n % 10) (Nat.mod_lt n (by decide))).1

theorem valueFrom?_append (acc : Nat) (cs cs' : List Char) :
    valueFrom? acc (cs ++ cs') = (valueFrom? acc cs).bind fun n => valueFrom? n cs' := by
  induction cs generalizing acc with
  | nil => rfl
  | cons c cs ih =>
    rw [List.cons_append, valueFrom?, valueFrom?]
    split
    · exact ih _
    · rfl

theorem valueFrom?_digits (n : Nat) : valueFrom? 0 (digits n) = some n := by
  fun_induction digits n with
  | case1 n hsmall =>
    obtain ⟨hdigit, hvalue⟩ := isDigit_digit n hsmall
    rw [valueFrom?, if_pos hdigit, hvalue, valueFrom?, Nat.mul_zero, Nat.zero_add]
  | case2 n hlarge ih =>
    obtain ⟨hdigit, hvalue⟩ := isDigit_digit (n % 10) (Nat.mod_lt n (by decide))
    rw [valueFrom?_append, ih, Option.bind_some, valueFrom?, if_pos hdigit, hvalue, valueFrom?,
      Nat.div_add_mod]

/-- A number below the limit is read back from its digits. -/
theorem parse?_digits {limit n : Nat} (h : n < limit) : parse? limit (digits n) = some n := by
  have hvalue : value? (digits n) = some n := by
    have hne := digits_ne_nil n
    have hfrom := valueFrom?_digits n
    cases hdigits : digits n with
    | nil => exact absurd hdigits hne
    | cons c cs =>
      rw [hdigits] at hfrom
      exact hfrom
  have hfits : (some n).filter (· < limit) = some n := by
    rw [Option.filter_some, if_pos (decide_eq_true h)]
  unfold parse?
  split
  · next rest hplus =>
    -- a sign is no digit
    have hsign : '+'.isDigit = true := isDigit_of_mem_digits (hplus ▸ List.mem_cons_self)
    exact absurd hsign (by decide)
  · show (value? (digits n)).filter (· < limit) = some n
    rw [hvalue, hfits]

/-- A number of at most `k` digits. -/
theorem length_digits_le {k n : Nat} (hk : 0 < k) (h : n < 10 ^ k) : (digits n).length ≤ k := by
  fun_induction digits n generalizing k with
  | case1 n hsmall => exact hk
  | case2 n hlarge ih =>
    obtain ⟨j, rfl⟩ := Nat.exists_eq_add_one.2 hk
    rw [List.length_append, List.length_singleton]
    have hpos : 0 < j := by
      rcases Nat.eq_zero_or_pos j with rfl | hpos
      · omega
      · exact hpos
    have hdiv : n / 10 < 10 ^ j := by
      rw [Nat.pow_succ] at h
      exact Nat.div_lt_of_lt_mul (by omega)
    have := ih hpos hdiv
    omega

end Decimal

/-! ## Hexadecimal text -/

namespace Hex

/-- The sixteen digits. -/
theorem digitValue?_digit : ∀ n < 16, digitValue? (digit n) = some n := by decide

theorem digit_cases : ∀ n < 16, (digit n).isLower = true ∨ (digit n).isDigit = true := by decide

theorem length_encodeChars (bs : Bytes) : (encodeChars bs).length = 2 * bs.length := by
  induction bs with
  | nil => rfl
  | cons b bs ih =>
    have hcons : encodeChars (b :: bs)
        = digit (b.toNat / 16) :: digit (b.toNat % 16) :: encodeChars bs := rfl
    rw [hcons, List.length_cons, List.length_cons, ih, List.length_cons]
    omega

theorem cases_of_mem_encodeChars {bs : Bytes} {c : Char} (h : c ∈ encodeChars bs) :
    c.isLower = true ∨ c.isDigit = true := by
  obtain ⟨b, -, hb⟩ := List.mem_flatMap.1 h
  have hlt := b.toNat_lt
  rw [List.mem_cons, List.mem_singleton] at hb
  rcases hb with rfl | rfl
  · exact digit_cases _ (by omega)
  · exact digit_cases _ (by omega)

theorem decodePairs_encodeChars (position : Nat) (bs : Bytes) :
    decodePairs position (encodeChars bs) = .ok bs := by
  induction bs generalizing position with
  | nil => rfl
  | cons b bs ih =>
    have hlt := b.toNat_lt
    have hcons : encodeChars (b :: bs)
        = digit (b.toNat / 16) :: digit (b.toNat % 16) :: encodeChars bs := rfl
    rw [hcons, decodePairs, digitValue?_digit _ (by omega), digitValue?_digit _ (by omega), ih]
    simp only [Nat.div_add_mod, UInt8.ofNat_toNat]

/-- A byte string is read back from its digits. -/
theorem decodeChars_encodeChars (bs : Bytes) : decodeChars (encodeChars bs) = .ok bs := by
  rw [decodeChars, length_encodeChars, if_neg (by omega), decodePairs_encodeChars]

end Hex

end OneTimeChannel

/-
  Which texts are numbers and byte strings.

  A decimal number is written with any number of digits, leading zeros among them, and perhaps a plus
  sign; a byte is written with two hexadecimal digits of either case.  Both are said here without the
  readers: what digits stand for is their sum with powers of ten (`Decimal.Denotes`), and a byte string is
  a sequence of pairs (`Hex.Denotes`).  The readers accept exactly these texts and read in each what it
  stands for (`Decimal.parse?_eq_some_iff`, `Hex.decodeChars_eq_ok_iff`).
-/
import OneTimeChannel.Proofs.Text.Digits
import Mathlib.Data.Nat.Digits.Defs

namespace OneTimeChannel

/-! ## Decimal numbers -/

namespace Decimal

variable {cs : List Char} {acc n limit : Nat}

/-- The number that digits stand for, the first of which weighs most. -/
def total (ds : List Char) : Nat := Nat.ofDigits 10 (ds.reverse.map digitValue)

/-- One or more digits after an optional plus sign, and the number they stand for. -/
def Denotes (cs : List Char) (n : Nat) : Prop :=
  ∃ ds, (cs = ds ∨ cs = '+' :: ds) ∧ ds ≠ [] ∧ (∀ c ∈ ds, c.isDigit = true) ∧ total ds = n

theorem total_cons (c : Char) (ds : List Char) :
    total (c :: ds) = 10 ^ ds.length * digitValue c + total ds := by
  rw [total, List.reverse_cons, List.map_append, Nat.ofDigits_append, List.length_map,
    List.length_reverse, List.map_singleton, Nat.ofDigits_singleton, Nat.add_comm, total]

/-- Each digit shifts what was read before it. -/
theorem valueFrom?_eq_some_iff :
    valueFrom? acc cs = some n
      ↔ (∀ c ∈ cs, c.isDigit = true) ∧ acc * 10 ^ cs.length + total cs = n := by
  induction cs generalizing acc with
  | nil =>
    rw [valueFrom?, Option.some.injEq]
    simp [total]
  | cons c cs ih =>
    have hshift : (10 * acc + digitValue c) * 10 ^ cs.length + total cs
        = acc * 10 ^ (c :: cs).length + total (c :: cs) := by
      rw [total_cons, List.length_cons, Nat.pow_succ]
      ring
    rw [valueFrom?]
    split
    · next hdigit => rw [ih, hshift, List.forall_mem_cons, and_iff_right hdigit]
    · next hdigit =>
      constructor
      · rintro ⟨⟩
      · rintro ⟨hall, -⟩
        exact absurd (hall c List.mem_cons_self) hdigit

theorem value?_eq_some_iff :
    value? cs = some n ↔ cs ≠ [] ∧ (∀ c ∈ cs, c.isDigit = true) ∧ total cs = n := by
  cases cs with
  | nil => simp [value?]
  | cons c cs =>
    rw [value?, valueFrom?_eq_some_iff, Nat.zero_mul, Nat.zero_add]
    · simp
    · rintro ⟨⟩

/-- A text is read as a number if it stands for it and the number is small enough. -/
theorem parse?_eq_some_iff : parse? limit cs = some n ↔ Denotes cs n ∧ n < limit := by
  have hnumber : ∀ unsigned, (value? unsigned).filter (· < limit) = some n
      ↔ (unsigned ≠ [] ∧ (∀ c ∈ unsigned, c.isDigit = true) ∧ total unsigned = n) ∧ n < limit := by
    intro unsigned
    rw [Option.filter_eq_some_iff, value?_eq_some_iff, decide_eq_true_iff]
  unfold parse?
  split
  · next rest =>
    rw [hnumber, and_congr_left_iff]
    intro _
    constructor
    · exact fun h => ⟨rest, Or.inr rfl, h⟩
    · rintro ⟨ds, rfl | hsign, hne, hdigits, htotal⟩
      · exact absurd (hdigits '+' List.mem_cons_self) (by decide)
      · cases hsign
        exact ⟨hne, hdigits, htotal⟩
  · next hunsigned =>
    rw [hnumber, and_congr_left_iff]
    intro _
    constructor
    · exact fun h => ⟨cs, Or.inl rfl, h⟩
    · rintro ⟨ds, rfl | rfl, hne, hdigits, htotal⟩
      · exact ⟨hne, hdigits, htotal⟩
      · exact absurd rfl (hunsigned ds)

end Decimal

/-! ## Byte strings -/

namespace Hex

/-- A digit of either case for a number below sixteen. -/
def IsDigit (c : Char) (n : Nat) : Prop := n < 16 ∧ c.toLower = digit n

/-- Pairs of digits and the bytes that they stand for. -/
inductive Denotes : List Char → Bytes → Prop where
  | nil : Denotes [] []
  | cons {high low : Char} {h l : Nat} {cs : List Char} {bs : Bytes} (hhigh : IsDigit high h)
      (hlow : IsDigit low l) (hrest : Denotes cs bs) :
      Denotes (high :: low :: cs) (UInt8.ofNat (16 * h + l) :: bs)

theorem lt_of_digitValue?_eq_some {c : Char} {n : Nat} (h : digitValue? c = some n) :
    c.toNat < 128 ∧ n < 16 := by
  rw [digitValue?] at h
  split at h
  · next hrange =>
    have hle : c.toNat ≤ 57 := Text.toNat_le_of_le hrange.2
    have hn : c.toNat - 48 = n := Option.some.inj h
    omega
  split at h
  · next hrange =>
    have hle : c.toNat ≤ 102 := Text.toNat_le_of_le hrange.2
    have hn : c.toNat - 97 + 10 = n := Option.some.inj h
    omega
  split at h
  · next hrange =>
    have hle : c.toNat ≤ 70 := Text.toNat_le_of_le hrange.2
    have hn : c.toNat - 65 + 10 = n := Option.some.inj h
    omega
  · cases h

/-- A character whose lower case is a digit is an ASCII character. -/
theorem IsDigit.toNat_lt {c : Char} {n : Nat} (h : IsDigit c n) : c.toNat < 128 := by
  obtain ⟨hn, hlower⟩ := h
  have hdigits : ∀ n < 16, (digit n).toNat < 128 := by decide
  by_cases hupper : c.val ≥ 'A'.val ∧ c.val ≤ 'Z'.val
  · exact Nat.lt_of_le_of_lt (Text.toNat_le_of_le hupper.2) (by decide)
  · have hkept : c.toLower = c := dif_neg hupper
    rw [← hkept, hlower]
    exact hdigits n hn

theorem digitValue?_eq_some_iff {c : Char} {n : Nat} : digitValue? c = some n ↔ IsDigit c n := by
  have hall : ∀ c : Char, c.toNat < 128 → ∀ n < 16, digitValue? c = some n ↔ c.toLower = digit n :=
    Text.forall_ascii (by decide)
  constructor
  · intro h
    obtain ⟨hc, hn⟩ := lt_of_digitValue?_eq_some h
    exact ⟨hn, (hall c hc n hn).1 h⟩
  · intro h
    exact (hall c h.toNat_lt n h.1).2 h.2

variable {cs : List Char} {bs : Bytes}

theorem Denotes.even_length (h : Denotes cs bs) : cs.length % 2 = 0 := by
  induction h with
  | nil => rfl
  | cons _ _ _ ih =>
    rw [List.length_cons, List.length_cons]
    omega

theorem decodePairs_of_denotes (position : Nat) (h : Denotes cs bs) :
    decodePairs position cs = .ok bs := by
  induction h generalizing position with
  | nil => rfl
  | cons hhigh hlow _ ih =>
    rw [decodePairs, digitValue?_eq_some_iff.2 hhigh, digitValue?_eq_some_iff.2 hlow, ih]

theorem denotes_of_decodePairs {position : Nat} (heven : cs.length % 2 = 0)
    (h : decodePairs position cs = .ok bs) : Denotes cs bs := by
  fun_induction decodePairs position cs generalizing bs with
  | case1 => cases h
  | case2 => cases h
  | case3 position high low rest value hhigh value' hlow bs' hrest ih =>
    cases h
    rw [List.length_cons, List.length_cons] at heven
    exact .cons (digitValue?_eq_some_iff.1 hhigh) (digitValue?_eq_some_iff.1 hlow)
      (ih (by omega) hrest)
  | case4 => cases h
  | case5 cs position hshort =>
    cases h
    -- a single digit would be an odd number of them
    match cs, hshort, heven with
    | [], _, _ => exact .nil
    | [_], _, heven => cases heven
    | high :: low :: rest, hshort, _ => exact absurd rfl (hshort high low rest)

/-- A text is read as a byte string if it is made of pairs of digits that stand for it. -/
theorem decodeChars_eq_ok_iff : decodeChars cs = .ok bs ↔ Denotes cs bs := by
  rw [decodeChars]
  constructor
  · intro h
    split at h
    · cases h
    · exact denotes_of_decodePairs (by omega) h
  · intro h
    have heven := h.even_length
    rw [if_neg (by omega), decodePairs_of_denotes 0 h]

end Hex

end OneTimeChannel

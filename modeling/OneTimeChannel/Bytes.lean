/-
  Byte strings.

  A byte string is the list of its bytes, so `++`, `take`, `drop` and `length` are the ones of
  lists.  On top of that this file has the three things the channel needs everywhere:

  * fixed-width integers, little-endian for record lengths and big-endian for message headers and
    field elements.  Both are one positional code (`LittleEndian`), read in the two directions;
  * masking one byte string with another (`mask?`), which asks for equal lengths;
  * comparison of authentication tags (`sameBytes`), which looks at every byte before it answers.

  Core only.
-/

namespace OneTimeChannel

/-- A byte string, first byte first. -/
abbrev Bytes := List UInt8

/-- A precondition between two parts of the library that did not hold.  Callers are expected to
    check first, so a fault says that the caller is wrong, not the data it was given. -/
inductive Fault where
  /-- Two byte strings that are masked with each other differ in length. -/
  | unequalLengths
  /-- More bytes than a field element holds. -/
  | blockTooLong
  /-- A coefficient or a power outside the table was asked for. -/
  | indexOutOfRange
  /-- A slice reaches past the end of its byte string. -/
  | sliceOutOfRange
  /-- Key material is cut into pieces of no bytes. -/
  | emptyQuantum
  /-- More bytes are asked for than one piece of memory can have. -/
  | capacityOverflow
  deriving DecidableEq, Repr

/-- How many pieces of at most `size` bytes make up `length` bytes. -/
def pieceCount (size length : Nat) : Nat := (length + size - 1) / size

/-! ## Fixed-width integers -/

namespace LittleEndian

/-- The `k` lowest base-256 digits of `n`, lowest first. -/
def ofNat : Nat → Nat → Bytes
  | 0, _ => []
  | k + 1, n => UInt8.ofNat n :: ofNat k (n / 256)

/-- The number whose base-256 digits are `bs`, lowest first. -/
def toNat : Bytes → Nat
  | [] => 0
  | b :: bs => b.toNat + 256 * toNat bs

@[simp] theorem length_ofNat (k n : Nat) : (ofNat k n).length = k := by
  induction k generalizing n with
  | zero => rfl
  | succ k ih => simp [ofNat, ih]

/-- One more byte is eight more bits. -/
theorem shiftLeft_succ (k : Nat) : 1 <<< (8 * (k + 1)) = 256 * (1 <<< (8 * k)) := by
  rw [Nat.one_shiftLeft, Nat.one_shiftLeft, Nat.mul_succ, Nat.pow_add, Nat.mul_comm]

/-- Reading back loses exactly the digits that were not written. -/
theorem toNat_ofNat (k n : Nat) : toNat (ofNat k n) = n % (1 <<< (8 * k)) := by
  induction k generalizing n with
  | zero => simp [ofNat, toNat, Nat.mod_one]
  | succ k ih =>
    simp only [ofNat, toNat, ih, UInt8.toNat_ofNat', shiftLeft_succ, Nat.mod_mul]

theorem toNat_lt (bs : Bytes) : toNat bs < 1 <<< (8 * bs.length) := by
  induction bs with
  | nil => exact Nat.one_pos
  | cons b bs ih =>
    have hb := b.toNat_lt
    rw [toNat, List.length_cons, shiftLeft_succ]
    omega

/-- Every byte string is the code of the number it stands for. -/
theorem ofNat_toNat (bs : Bytes) : ofNat bs.length (toNat bs) = bs := by
  induction bs with
  | nil => rfl
  | cons b bs ih =>
    have hb := b.toNat_lt
    have hdiv : (b.toNat + 256 * toNat bs) / 256 = toNat bs := by omega
    have hlow : UInt8.ofNat (b.toNat + 256 * toNat bs) = b := by
      apply UInt8.toNat_inj.1
      rw [UInt8.toNat_ofNat']
      omega
    simp only [List.length_cons, ofNat, toNat, hdiv, hlow, ih]

end LittleEndian

namespace BigEndian

/-- The `k` lowest base-256 digits of `n`, highest first. -/
def ofNat (k n : Nat) : Bytes := (LittleEndian.ofNat k n).reverse

/-- The number whose base-256 digits are `bs`, highest first. -/
def toNat (bs : Bytes) : Nat := LittleEndian.toNat bs.reverse

@[simp] theorem length_ofNat (k n : Nat) : (ofNat k n).length = k := by
  simp [ofNat]

theorem toNat_ofNat (k n : Nat) : toNat (ofNat k n) = n % (1 <<< (8 * k)) := by
  rw [toNat, ofNat, List.reverse_reverse, LittleEndian.toNat_ofNat]

theorem toNat_lt (bs : Bytes) : toNat bs < 1 <<< (8 * bs.length) := by
  have h := LittleEndian.toNat_lt bs.reverse
  rwa [List.length_reverse] at h

theorem ofNat_toNat (bs : Bytes) : ofNat bs.length (toNat bs) = bs := by
  have h := LittleEndian.ofNat_toNat bs.reverse
  rw [List.length_reverse] at h
  simp [ofNat, toNat, h]

end BigEndian

/-! ## Masking and comparing -/

/-- The exclusive or of two byte strings of one length. -/
def mask? (a b : Bytes) : Option Bytes :=
  if a.length = b.length then some (List.zipWith (· ^^^ ·) a b) else none

theorem length_of_mask?_eq_some {a b c : Bytes} (h : mask? a b = some c) :
    c.length = a.length := by
  unfold mask? at h
  split at h
  · next hab =>
    cases h
    simp [hab]
  · cases h

theorem mask?_of_length_eq {a b : Bytes} (h : a.length = b.length) :
    mask? a b = some (List.zipWith (· ^^^ ·) a b) := if_pos h

/-- Masking loses nothing of what is masked. -/
theorem zipWith_xor_left_cancel {a b mask : Bytes} (ha : a.length = mask.length)
    (hb : b.length = mask.length)
    (h : List.zipWith (· ^^^ ·) a mask = List.zipWith (· ^^^ ·) b mask) : a = b := by
  induction mask generalizing a b with
  | nil =>
    rw [List.eq_nil_of_length_eq_zero ha, List.eq_nil_of_length_eq_zero hb]
  | cons z mask ih =>
    cases a with
    | nil => cases ha
    | cons x a =>
      cases b with
      | nil => cases hb
      | cons y b =>
        simp only [List.zipWith_cons_cons, List.cons.injEq] at h
        have hxy : x = y := by
          have hz := congrArg (· ^^^ z) h.1
          simpa [UInt8.xor_assoc] using hz
        have hab : a = b := ih (Nat.succ.inj ha) (Nat.succ.inj hb) h.2
        rw [hxy, hab]

/-- Masking twice with the same bytes gives back what was masked. -/
theorem zipWith_xor_zipWith_xor {a mask : Bytes} (h : a.length = mask.length) :
    List.zipWith (· ^^^ ·) (List.zipWith (· ^^^ ·) a mask) mask = a := by
  induction a generalizing mask with
  | nil => rfl
  | cons x a ih =>
    cases mask with
    | nil => cases h
    | cons z mask =>
      simp only [List.zipWith_cons_cons, UInt8.xor_assoc, UInt8.xor_self, UInt8.xor_zero]
      rw [ih (Nat.succ.inj h)]

/-- All the bits in which two byte strings differ, collected into one byte.  The whole of both
    strings is read, whatever the first difference. -/
def differences (a b : Bytes) : UInt8 :=
  (List.zipWith (· ^^^ ·) a b).foldl (· ||| ·) 0

/-- Whether two byte strings are equal; only their lengths decide how long the answer takes. -/
def sameBytes (a b : Bytes) : Bool :=
  a.length == b.length && differences a b == 0

theorem foldl_or_eq_zero_iff (l : Bytes) (acc : UInt8) :
    l.foldl (· ||| ·) acc = 0 ↔ acc = 0 ∧ ∀ x ∈ l, x = 0 := by
  induction l generalizing acc with
  | nil => simp
  | cons x l ih =>
    simp only [List.foldl_cons, ih, List.mem_cons, forall_eq_or_imp]
    have hor : acc ||| x = 0 ↔ acc = 0 ∧ x = 0 := by
      simp only [← UInt8.toNat_inj, UInt8.toNat_or, UInt8.toNat_zero, Nat.or_eq_zero_iff]
    rw [hor, and_assoc]

/-- Collecting differences is a comparison: no difference is left exactly when there is none. -/
theorem sameBytes_iff {a b : Bytes} : sameBytes a b = true ↔ a = b := by
  simp only [sameBytes, differences, Bool.and_eq_true, beq_iff_eq, foldl_or_eq_zero_iff, true_and]
  constructor
  · intro ⟨hlen, hall⟩
    induction a generalizing b with
    | nil => cases b with
      | nil => rfl
      | cons y b => simp at hlen
    | cons x a ih => cases b with
      | nil => simp at hlen
      | cons y b =>
        simp only [List.zipWith_cons_cons, List.mem_cons, forall_eq_or_imp] at hall
        have hxy : x = y := by simpa using hall.1
        have hab : a = b := ih (by simpa using hlen) hall.2
        rw [hxy, hab]
  · rintro rfl
    refine ⟨rfl, ?_⟩
    induction a with
    | nil => simp
    | cons x a ih =>
      intro y hy
      simp only [List.zipWith_cons_cons, List.mem_cons] at hy
      rcases hy with rfl | hy
      · simp
      · exact ih y hy

end OneTimeChannel

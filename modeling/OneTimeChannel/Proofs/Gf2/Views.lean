/-
  One polynomial, seen as bytes, as words and as coefficients.

  An element is written with its highest byte first, its words are counted from the highest as well, and its
  coefficients are counted from the lowest.  Whichever of the three is looked at, coefficient `i` is binary
  digit `i % 8` of byte `4 * w - 1 - i / 8` and binary digit `i % 32` of word `w - 1 - i / 32`
  (`coefficient?_eq_byte`, `coefficient?_eq_word`), and the degree is the greatest `i` with such a digit
  (`degree?_eq_some_iff`).

  Reading and the degree are said once more without numbers, one word or one byte at a time: each byte is
  put into its place in an array of words (`wordsOfBytes`), and the degree is found in the highest word that
  is not zero (`degreeOfWords?`).
-/
import OneTimeChannel.Gf2.Element
import Mathlib.Data.List.GetD
import Mathlib.Data.List.Induction
import Mathlib.Data.Nat.Bitwise
import Mathlib.Tactic.Ring

namespace OneTimeChannel

/-! ## Digits of numbers -/

/-- Binary digit `i` of a number is in digit `i / k` to the base `2 ^ k`. -/
theorem testBit_foldr_digits {k : Nat} (hk : 0 < k) {ds : List Nat} (h : ∀ d ∈ ds, d < 2 ^ k) (i : Nat) :
    (ds.foldr (fun d n => d + n <<< k) 0).testBit i = (ds.getD (i / k) 0).testBit (i % k) := by
  induction ds generalizing i with
  | nil => simp
  | cons d ds ih =>
    rw [List.forall_mem_cons] at h
    rw [List.foldr_cons, Nat.shiftLeft_eq, Nat.mul_comm, Nat.add_comm, Nat.testBit_two_pow_mul_add _ h.1]
    split
    · next hlow => rw [Nat.div_eq_of_lt hlow, Nat.mod_eq_of_lt hlow, List.getD_cons_zero]
    · next hhigh =>
      obtain ⟨j, rfl⟩ := Nat.exists_eq_add_of_le (Nat.not_lt.1 hhigh)
      rw [Nat.add_sub_cancel_left, ih h.2, Nat.add_div_left j hk, Nat.add_mod_left, List.getD_cons_succ]

theorem LittleEndian.testBit_toNat (bs : Bytes) (i : Nat) :
    (toNat bs).testBit i = (bs.getD (i / 8) 0).toNat.testBit (i % 8) := by
  have hdigits : toNat bs = (bs.map UInt8.toNat).foldr (fun d n => d + n <<< 8) 0 := by
    induction bs with
    | nil => rfl
    | cons b bs ih => rw [toNat, List.map_cons, List.foldr_cons, ← ih, Nat.shiftLeft_eq, Nat.mul_comm]
  have hbyte : ∀ d ∈ bs.map UInt8.toNat, d < 2 ^ 8 :=
    List.forall_mem_map.2 fun b _ => b.toNat_lt
  rw [hdigits, testBit_foldr_digits (by decide) hbyte, ← UInt8.toNat_zero, List.getD_map]

theorem BigEndian.testBit_toNat {bs : Bytes} {i : Nat} (h : i < 8 * bs.length) :
    (toNat bs).testBit i = (bs.getD (bs.length - 1 - i / 8) 0).toNat.testBit (i % 8) := by
  rw [toNat, LittleEndian.testBit_toNat, List.getD_eq_getElem?_getD, List.getElem?_reverse (by omega),
    List.getD_eq_getElem?_getD]

/-- Zero bytes behind a number move it up. -/
theorem BigEndian.toNat_append_zeros (bs : Bytes) (n : Nat) :
    toNat (bs ++ List.replicate n 0) = toNat bs <<< (8 * n) := by
  rw [toNat, List.reverse_append, List.reverse_replicate, toNat]
  induction n with
  | zero => rfl
  | succ n ih =>
    rw [List.replicate_succ, List.cons_append, LittleEndian.toNat, ih, UInt8.toNat_zero, Nat.zero_add,
      Nat.shiftLeft_eq, Nat.shiftLeft_eq, Nat.mul_succ, Nat.pow_add]
    ring

/-- The digits beyond the ones that are written do not count. -/
theorem LittleEndian.ofNat_mod (k n : Nat) : ofNat k (n % 256 ^ k) = ofNat k n := by
  induction k generalizing n with
  | zero => rfl
  | succ k ih =>
    have hlow : UInt8.ofNat (n % 256 ^ (k + 1)) = UInt8.ofNat n := by
      apply UInt8.toNat_inj.1
      rw [UInt8.toNat_ofNat', UInt8.toNat_ofNat']
      exact Nat.mod_mod_of_dvd n (Dvd.intro_left (256 ^ k) rfl)
    have hhigh : n % 256 ^ (k + 1) / 256 = n / 256 % 256 ^ k := by
      rw [Nat.pow_succ', Nat.mod_mul_right_div_self]
    rw [ofNat, ofNat, hlow, hhigh, ih]

theorem LittleEndian.ofNat_add (j k n : Nat) :
    ofNat (j + k) n = ofNat j n ++ ofNat k (n / 256 ^ j) := by
  induction j generalizing n with
  | zero => simp [ofNat]
  | succ j ih =>
    rw [Nat.succ_add, ofNat, ofNat, ih, List.cons_append, Nat.div_div_eq_div_mul, Nat.pow_succ']

/-- A number of `m` words is written word by word, the highest first. -/
theorem BigEndian.ofNat_words (m n : Nat) :
    ofNat (4 * m) n = (List.range m).reverse.flatMap fun k =>
      ofNat 4 (UInt32.ofNat (n >>> (32 * k))).toNat := by
  induction m with
  | zero => rfl
  | succ m ih =>
    have hword : ofNat 4 (UInt32.ofNat (n >>> (32 * m))).toNat
        = (LittleEndian.ofNat 4 (n / 256 ^ (4 * m))).reverse := by
      have hpow : 2 ^ (32 * m) = 256 ^ (4 * m) := by
        rw [show (256 : Nat) = 2 ^ 8 from rfl, ← Nat.pow_mul]
        congr 1
        omega
      rw [ofNat, UInt32.toNat_ofNat', Nat.shiftRight_eq_div_pow, hpow]
      exact congrArg List.reverse (LittleEndian.ofNat_mod 4 _)
    rw [List.range_succ, List.reverse_concat, List.flatMap_cons, ← ih, hword, ofNat, ofNat, Nat.mul_succ,
      LittleEndian.ofNat_add, List.reverse_append]

namespace Gf2.Element

variable {w : Nat} (a : Element w)

/-! ## Bytes -/

/-- A byte string is read as the element that it is the writing of, and as no other. -/
theorem ofBytes?_eq_some_iff {bs : Bytes} : ofBytes? bs = some a ↔ a.toBytes = bs := by
  constructor
  · exact toBytes_of_ofBytes?_eq_some
  · rintro rfl
    exact ofBytes?_toBytes a

theorem ofBytes?_eq_none_iff {bs : Bytes} :
    (ofBytes? bs : Option (Element w)) = none ↔ bs.length ≠ 4 * w := by
  rw [ofBytes?]
  split
  · next hlength => simp [hlength]
  · next hlength => simp [hlength]

/-- Reading a short byte string is reading it with zero bytes behind it. -/
theorem ofLeadingBytes?_eq_ofBytes? (bs : Bytes) :
    (ofLeadingBytes? bs : Option (Element w))
      = ofBytes? (bs ++ List.replicate (4 * w - bs.length) 0) := by
  have hlength : (bs ++ List.replicate (4 * w - bs.length) 0).length
      = bs.length + (4 * w - bs.length) := by
    rw [List.length_append, List.length_replicate]
  rw [ofLeadingBytes?, ofBytes?, hlength]
  by_cases hle : bs.length ≤ 4 * w
  · rw [if_pos hle, if_pos (by omega), BigEndian.toNat_append_zeros]
  · rw [if_neg hle, if_neg (by omega)]

theorem getLsbD_eq_byte {i : Nat} (hi : i < 32 * w) :
    a.getLsbD i = (a.toBytes.getD (4 * w - 1 - i / 8) 0).toNat.testBit (i % 8) := by
  have hlt : i < 8 * a.toBytes.length := by
    rw [length_toBytes]
    omega
  have hdigit := BigEndian.testBit_toNat hlt
  rwa [toNat_toBytes, length_toBytes, BitVec.testBit_toNat] at hdigit

/-- Coefficient `i` is in byte `i / 8`, counted from the last. -/
theorem coefficient?_eq_byte (i : Nat) :
    a.coefficient? i = if i < 32 * w then
        (a.toBytes[4 * w - 1 - i / 8]?).map fun b => b.toNat.testBit (i % 8)
      else none := by
  rw [coefficient?]
  split
  · next hi =>
    have hlt : 4 * w - 1 - i / 8 < a.toBytes.length := by
      rw [length_toBytes]
      omega
    rw [getLsbD_eq_byte a hi, List.getD_eq_getElem _ 0 hlt, List.getElem?_eq_getElem hlt, Option.map_some]
  · rfl

/-! ## Coefficients -/

theorem coefficient?_eq_some_true_iff {i : Nat} : a.coefficient? i = some true ↔ a.getLsbD i = true := by
  rw [coefficient?]
  split
  · exact Option.some_inj
  · next hi => simp [BitVec.getLsbD_of_ge a i (by omega)]

theorem degree?_eq_none_iff : a.degree? = none ↔ a = 0 := by
  rw [degree?]
  split
  · next hzero => exact iff_of_true rfl hzero
  · next hne => exact iff_of_false (Option.some_ne_none _) hne

/-- The degree is the greatest place of a coefficient. -/
theorem degree?_eq_some_iff {d : Nat} :
    a.degree? = some d ↔ a.coefficient? d = some true ∧ ∀ i, d < i → a.coefficient? i ≠ some true := by
  simp only [ne_eq, coefficient?_eq_some_true_iff, ← BitVec.testBit_toNat, Bool.not_eq_true]
  constructor
  · intro h
    rw [degree?] at h
    split at h
    · cases h
    next hzero =>
    have hne : a.toNat ≠ 0 := fun heq => hzero (BitVec.eq_of_toNat_eq heq)
    cases h
    refine ⟨Nat.testBit_log2 hne, fun i hi => ?_⟩
    exact Nat.testBit_lt_two_pow
      (Nat.lt_of_lt_of_le Nat.lt_log2_self (Nat.pow_le_pow_right (by decide) hi))
  · rintro ⟨hdigit, hlast⟩
    have hne : a.toNat ≠ 0 := by
      intro hzero
      rw [hzero, Nat.zero_testBit] at hdigit
      cases hdigit
    have hlog : a.toNat.log2 = d := by
      rw [Nat.log2_eq_iff hne]
      exact ⟨Nat.ge_two_pow_of_testBit hdigit, Nat.lt_pow_two_of_testBit _ fun i hi => hlast i hi⟩
    have hzero : a ≠ 0 := fun heq => hne (by rw [heq]; rfl)
    rw [degree?, if_neg hzero, hlog]

/-- Above the degree there is nothing. -/
theorem getLsbD_of_degree?_lt {n : Nat} (h : ∀ d, a.degree? = some d → d < n) {i : Nat} (hi : n ≤ i) :
    a.getLsbD i = false := by
  cases hdegree : a.degree? with
  | none =>
    rw [a.degree?_eq_none_iff.1 hdegree]
    exact BitVec.getLsbD_zero
  | some d =>
    have hlast := (a.degree?_eq_some_iff.1 hdegree).2 i (Nat.lt_of_lt_of_le (h d hdegree) hi)
    rw [ne_eq, coefficient?_eq_some_true_iff] at hlast
    exact Bool.eq_false_iff.2 hlast

/-! ## Words -/

@[simp] theorem length_words : a.words.length = w := by
  simp [words]

theorem getElem?_words {k : Nat} (hk : k < w) :
    a.words[k]? = some (UInt32.ofNat (a.toNat >>> (32 * (w - 1 - k)))) := by
  have hlast : w - 1 - k < w := by omega
  rw [words, List.getElem?_map, List.getElem?_reverse (by rwa [List.length_range]), List.length_range,
    List.getElem?_range hlast, Option.map_some]

theorem testBit_word_toNat (k : Nat) {j : Nat} (hj : j < 32) :
    (UInt32.ofNat (a.toNat >>> (32 * k))).toNat.testBit j = a.getLsbD (32 * k + j) := by
  rw [UInt32.toNat_ofNat', Nat.testBit_mod_two_pow, decide_eq_true hj, Bool.true_and,
    Nat.testBit_shiftRight, BitVec.testBit_toNat]

/-- The words are written one after the other. -/
theorem toBytes_eq_flatMap_words : a.toBytes = a.words.flatMap fun v => BigEndian.ofNat 4 v.toNat := by
  rw [toBytes, BigEndian.ofNat_words, words, List.flatMap_map]

/-- Coefficient `i` is in word `i / 32`, counted from the last. -/
theorem coefficient?_eq_word (i : Nat) :
    a.coefficient? i = if i < 32 * w then
        (a.words[w - 1 - i / 32]?).map fun v => v.toNat.testBit (i % 32)
      else none := by
  rw [coefficient?]
  split
  · next hi =>
    have hback : w - 1 - (w - 1 - i / 32) = i / 32 := by omega
    rw [getElem?_words a (by omega), hback, Option.map_some,
      testBit_word_toNat a _ (Nat.mod_lt i (by decide)), Nat.div_add_mod]
  · rfl

/-- An element is known by its words. -/
theorem words_injective : Function.Injective (words (w := w)) := by
  intro a b hab
  apply toBytes_injective
  rw [toBytes_eq_flatMap_words, toBytes_eq_flatMap_words, hab]

theorem eq_zero_iff_words : a = 0 ↔ ∀ v ∈ a.words, v = 0 := by
  have hzero : (0 : Element w).words = List.replicate w 0 := by
    refine List.eq_replicate_iff.2 ⟨length_words 0, fun v hv => ?_⟩
    obtain ⟨k, -, rfl⟩ := List.mem_map.1 hv
    show UInt32.ofNat (0 >>> (32 * k)) = 0
    rw [Nat.zero_shiftRight]
    rfl
  rw [← words_injective.eq_iff, hzero, List.eq_replicate_iff, length_words]
  exact ⟨fun h => h.2, fun h => ⟨rfl, h⟩⟩

/-- The degree in the highest word that is not zero, for words with the highest first. -/
def degreeOfWords? : List UInt32 → Option Nat
  | [] => none
  | v :: vs => if v = 0 then degreeOfWords? vs else some (32 * vs.length + v.toNat.log2)

/-- The degree of a number of `m` words. -/
theorem degreeOfWords?_eq (m : Nat) {n : Nat} (h : n < 2 ^ (32 * m)) :
    degreeOfWords? ((List.range m).reverse.map fun k => UInt32.ofNat (n >>> (32 * k)))
      = if n = 0 then none else some n.log2 := by
  induction m with
  | zero =>
    obtain rfl : n = 0 := by omega
    rfl
  | succ m ih =>
    rw [Nat.mul_succ, Nat.pow_add] at h
    have htop : n >>> (32 * m) < 2 ^ 32 := by
      rw [Nat.shiftRight_eq_div_pow]
      exact Nat.div_lt_of_lt_mul h
    have hword : (UInt32.ofNat (n >>> (32 * m))).toNat = n >>> (32 * m) :=
      UInt32.toNat_ofNat_of_lt' htop
    have hword_zero : UInt32.ofNat (n >>> (32 * m)) = 0 ↔ n >>> (32 * m) = 0 := by
      rw [← UInt32.toNat_inj, hword, UInt32.toNat_zero]
    rw [List.range_succ, List.reverse_concat, List.map_cons, degreeOfWords?, List.length_map,
      List.length_reverse, List.length_range, hword]
    by_cases hzero : n >>> (32 * m) = 0
    · -- the word is zero, and the number fits the words below
      have hlow : n < 2 ^ (32 * m) := by
        rw [Nat.shiftRight_eq_div_pow] at hzero
        exact Nat.lt_of_div_eq_zero (Nat.two_pow_pos _) hzero
      rw [if_pos (hword_zero.2 hzero), ih hlow]
    · have hne : n ≠ 0 := by
        rintro rfl
        exact hzero (Nat.zero_shiftRight _)
      have hlog : n.log2 = 32 * m + (n >>> (32 * m)).log2 := by
        rw [Nat.log2_eq_iff hne, Nat.add_assoc, Nat.pow_add, Nat.pow_add]
        have hlow := Nat.log2_self_le hzero
        have hhigh := Nat.lt_log2_self (n := n >>> (32 * m))
        generalize (n >>> (32 * m)).log2 = d at hlow hhigh
        rw [Nat.shiftRight_eq_div_pow] at hlow hhigh
        constructor
        · rw [Nat.mul_comm]
          exact (Nat.le_div_iff_mul_le (Nat.two_pow_pos _)).1 hlow
        · rw [Nat.mul_comm]
          exact (Nat.div_lt_iff_lt_mul (Nat.two_pow_pos _)).1 hhigh
      rw [if_neg (mt hword_zero.1 hzero), if_neg hne, hlog]

theorem degree?_eq_degreeOfWords? : a.degree? = degreeOfWords? a.words := by
  have hzero : a.toNat = 0 ↔ a = 0 := ⟨fun h => BitVec.eq_of_toNat_eq h, fun h => by rw [h]; rfl⟩
  rw [words, degreeOfWords?_eq w a.isLt, degree?]
  simp only [hzero]

/-! ## Bytes put into words -/

/-- Puts byte `i` of a byte string into its word, the first of four bytes highest. -/
def putByte (ws : List UInt32) (b : UInt8) (i : Nat) : List UInt32 :=
  ws.modify (i / 4) (· ||| b.toUInt32 <<< UInt32.ofNat (24 - 8 * (i % 4)))

/-- The words that a byte string fills, highest first; the others are zero. -/
def wordsOfBytes (w : Nat) (bs : Bytes) : List UInt32 :=
  bs.zipIdx.foldl (fun ws p => putByte ws p.1 p.2) (List.replicate w 0)

@[simp] theorem length_putByte (ws : List UInt32) (b : UInt8) (i : Nat) :
    (putByte ws b i).length = ws.length :=
  List.length_modify _ _ _

theorem wordsOfBytes_append (w : Nat) (bs : Bytes) (b : UInt8) :
    wordsOfBytes w (bs ++ [b]) = putByte (wordsOfBytes w bs) b bs.length := by
  rw [wordsOfBytes, List.zipIdx_append, List.foldl_append, Nat.zero_add]
  rfl

@[simp] theorem length_wordsOfBytes (w : Nat) (bs : Bytes) : (wordsOfBytes w bs).length = w := by
  induction bs using List.reverseRecOn with
  | nil => exact List.length_replicate
  | append_singleton bs b ih => rw [wordsOfBytes_append, length_putByte, ih]

/-- A byte has its digits at one place of its word and at no other. -/
theorem testBit_shifted_byte (b : UInt8) {c j : Nat} (hc : c < 4) (hj : j < 32) :
    (b.toUInt32 <<< UInt32.ofNat (24 - 8 * c)).toNat.testBit j
      = (decide (c = 3 - j / 8) && b.toNat.testBit (j % 8)) := by
  have hshift : (UInt32.ofNat (24 - 8 * c)).toNat % 32 = 24 - 8 * c := by
    rw [UInt32.toNat_ofNat']
    omega
  rw [UInt32.toNat_shiftLeft, hshift, UInt8.toNat_toUInt32, Nat.testBit_mod_two_pow, decide_eq_true hj,
    Bool.true_and, Nat.testBit_shiftLeft]
  by_cases hplace : c = 3 - j / 8
  · have hrest : j - (24 - 8 * c) = j % 8 := by omega
    rw [decide_eq_true hplace, decide_eq_true (by omega), hrest]
  · rw [decide_eq_false hplace, Bool.false_and]
    by_cases hle : 24 - 8 * c ≤ j
    · -- the digit would be beyond the eight of the byte
      have hlt : b.toNat < 2 ^ (j - (24 - 8 * c)) :=
        Nat.lt_of_lt_of_le b.toNat_lt (Nat.pow_le_pow_right (by decide) (by omega))
      rw [Nat.testBit_lt_two_pow hlt, Bool.and_false]
    · rw [decide_eq_false hle, Bool.false_and]

theorem testBit_putByte {ws : List UInt32} (b : UInt8) {i : Nat} (hi : i / 4 < ws.length) (k : Nat)
    {j : Nat} (hj : j < 32) :
    ((putByte ws b i).getD k 0).toNat.testBit j
      = ((ws.getD k 0).toNat.testBit j
        || (decide (i = 4 * k + (3 - j / 8)) && b.toNat.testBit (j % 8))) := by
  rw [putByte, List.getD_eq_getElem?_getD, List.getElem?_modify, List.getD_eq_getElem?_getD]
  by_cases hk : i / 4 = k
  · subst hk
    have hplace : i % 4 = 3 - j / 8 ↔ i = 4 * (i / 4) + (3 - j / 8) := by omega
    rw [List.getElem?_eq_getElem hi, Option.map_eq_map, Option.map_some, if_pos rfl, Option.getD_some,
      Option.getD_some, UInt32.toNat_or, Nat.testBit_or,
      testBit_shifted_byte b (Nat.mod_lt i (by decide)) hj, decide_eq_decide.2 hplace]
  · have hplace : ¬ i = 4 * k + (3 - j / 8) := by omega
    simp only [if_neg hk, decide_eq_false hplace, Bool.false_and, Bool.or_false, id_map']

/-- Every byte is where it belongs. -/
theorem testBit_wordsOfBytes {bs : Bytes} (h : bs.length ≤ 4 * w) (k : Nat) {j : Nat} (hj : j < 32) :
    ((wordsOfBytes w bs).getD k 0).toNat.testBit j
      = (bs.getD (4 * k + (3 - j / 8)) 0).toNat.testBit (j % 8) := by
  induction bs using List.reverseRecOn with
  | nil => simp [wordsOfBytes]
  | append_singleton bs b ih =>
    rw [List.length_append, List.length_singleton] at h
    have hi : bs.length / 4 < (wordsOfBytes w bs).length := by
      rw [length_wordsOfBytes]
      omega
    rw [wordsOfBytes_append, testBit_putByte b hi k hj, ih (by omega)]
    generalize 4 * k + (3 - j / 8) = n
    rcases Nat.lt_trichotomy n bs.length with hlt | rfl | hgt
    · rw [List.getD_append _ _ _ _ hlt, decide_eq_false (by omega), Bool.false_and, Bool.or_false]
    · rw [List.getD_append_right _ _ _ _ (Nat.le_refl _), Nat.sub_self, List.getD_cons_zero,
        List.getD_eq_default _ _ (Nat.le_refl _), decide_eq_true rfl, Bool.true_and, UInt8.toNat_zero,
        Nat.zero_testBit, Bool.false_or]
    · rw [List.getD_eq_default _ _ (Nat.le_of_lt hgt), decide_eq_false (by omega), Bool.false_and,
        Bool.or_false, List.getD_eq_default]
      rw [List.length_append, List.length_singleton]
      omega

/-- Reading fills the words byte by byte. -/
theorem words_of_ofLeadingBytes? {bs : Bytes} (h : ofLeadingBytes? bs = some a) :
    a.words = wordsOfBytes w bs := by
  have hle : bs.length ≤ 4 * w := by
    by_contra hgt
    rw [ofLeadingBytes?, if_neg hgt] at h
    cases h
  rw [ofLeadingBytes?_eq_ofBytes?, ofBytes?_eq_some_iff] at h
  refine List.ext_getElem (by simp) fun k hk hk' => ?_
  rw [length_words] at hk
  have hword := getElem?_words a hk
  rw [List.getElem?_eq_getElem (by rwa [length_words]), Option.some_inj] at hword
  rw [hword, ← List.getD_eq_getElem _ 0 hk', ← UInt32.toNat_inj]
  apply Nat.eq_of_testBit_eq
  intro j
  by_cases hj : j < 32
  · have hbyte : 4 * w - 1 - (32 * (w - 1 - k) + j) / 8 = 4 * k + (3 - j / 8) := by omega
    have hdigit : (32 * (w - 1 - k) + j) % 8 = j % 8 := by omega
    have hzeros : ∀ n, (bs ++ List.replicate (4 * w - bs.length) 0).getD n 0 = bs.getD n 0 := by
      intro n
      rcases Nat.lt_or_ge n bs.length with hlt | hge
      · exact List.getD_append _ _ _ _ hlt
      · rw [List.getD_append_right _ _ _ _ hge, List.getD_eq_default _ _ hge, List.getD_eq_getElem?_getD,
          List.getElem?_getD_replicate_default_eq]
    rw [testBit_word_toNat a _ hj, getLsbD_eq_byte a (by omega), hbyte, hdigit, h, hzeros,
      testBit_wordsOfBytes hle k hj]
  · have hlarge : ∀ v : UInt32, v.toNat.testBit j = false := fun v =>
      Nat.testBit_lt_two_pow (Nat.lt_of_lt_of_le v.toNat_lt (Nat.pow_le_pow_right (by decide) (by omega)))
    rw [hlarge, hlarge]

/-- Strings that are too long are refused, and all others fill the words. -/
theorem map_words_ofLeadingBytes? (w : Nat) (bs : Bytes) :
    (ofLeadingBytes? bs : Option (Element w)).map words
      = if bs.length ≤ 4 * w then some (wordsOfBytes w bs) else none := by
  split
  · next hle =>
    obtain ⟨a, ha⟩ : ∃ a : Element w, ofLeadingBytes? bs = some a := ⟨_, if_pos hle⟩
    rw [ha, Option.map_some, words_of_ofLeadingBytes? a ha]
  · next hgt => rw [ofLeadingBytes?, if_neg hgt, Option.map_none]

/-! ## All views -/

/-- Bytes, words and coefficients are three views of one element: each of the strings of `4 * w` bytes is
    the writing of one element, and no other string is read; short strings are read as if zero bytes followed;
    a coefficient, the degree and whether anything is there at all can be told from each of the views. -/
theorem views_agree (bs : Bytes) :
    (ofBytes? bs = some a ↔ a.toBytes = bs)
      ∧ ((ofBytes? bs : Option (Element w)) = none ↔ bs.length ≠ 4 * w)
      ∧ (ofLeadingBytes? bs : Option (Element w))
        = ofBytes? (bs ++ List.replicate (4 * w - bs.length) 0)
      ∧ (ofLeadingBytes? bs : Option (Element w)).map words
        = (if bs.length ≤ 4 * w then some (wordsOfBytes w bs) else none)
      ∧ (a.toBytes = a.words.flatMap fun v => BigEndian.ofNat 4 v.toNat)
      ∧ (∀ i, a.coefficient? i = if i < 32 * w then
            (a.toBytes[4 * w - 1 - i / 8]?).map fun b => b.toNat.testBit (i % 8)
          else none)
      ∧ (∀ i, a.coefficient? i = if i < 32 * w then
            (a.words[w - 1 - i / 32]?).map fun v => v.toNat.testBit (i % 32)
          else none)
      ∧ (∀ d, a.degree? = some d ↔
          a.coefficient? d = some true ∧ ∀ i, d < i → a.coefficient? i ≠ some true)
      ∧ a.degree? = degreeOfWords? a.words
      ∧ (a.degree? = none ↔ a = 0)
      ∧ (a = 0 ↔ ∀ v ∈ a.words, v = 0) :=
  ⟨a.ofBytes?_eq_some_iff, ofBytes?_eq_none_iff, ofLeadingBytes?_eq_ofBytes? bs, map_words_ofLeadingBytes? w bs,
    a.toBytes_eq_flatMap_words, a.coefficient?_eq_byte, a.coefficient?_eq_word,
    fun _ => a.degree?_eq_some_iff, a.degree?_eq_degreeOfWords?, a.degree?_eq_none_iff, a.eq_zero_iff_words⟩

end Gf2.Element

end OneTimeChannel

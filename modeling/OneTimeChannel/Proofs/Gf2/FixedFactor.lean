/-
  Multiplication by a fixed factor is multiplication in the field.

  For every width and modulus, tables of either size give the product that the field computes as one
  carry-less product and one fold (`times_ofElement`).

  The same is said of what a machine does (`timesWords`).  It begins with tables of zeros and fills in one
  entry after the other, each from the one without its lowest digit (`filledTable_eq_spanTable`).  An element
  is 32-bit words, and no step needs more than each word and the one below (`word_step`); the chunks of the
  operand are cut from its words, one word after the other, since no chunk crosses the border between two
  (`times_eq_foldl_words`).  What the entries are is said apart (`getD_products`, `getD_overflows`).
-/
import OneTimeChannel.Proofs.Gf2.Laws

namespace OneTimeChannel.Gf2

variable {w : Nat}

/-! ## Tables -/

@[simp] theorem getD_spanTable_zero (basis : Nat → Element w) (k : Nat) :
    (spanTable basis k).getD 0 0 = 0 := by
  induction k with
  | zero => rfl
  | succ k ih =>
    rw [getD_spanTable_succ basis (Nat.two_pow_pos (k + 1)), Nat.zero_mod, ih, Nat.zero_testBit,
      cond_false]
    exact BitVec.xor_self

/-- An entry is the entry without one of its digits, with what this digit adds. -/
theorem getD_spanTable_xor (basis : Nat → Element w) {k v j : Nat} (hv : v < 2 ^ k)
    (hj : v.testBit j = true) :
    (spanTable basis k).getD v 0 = (spanTable basis k).getD (v ^^^ 2 ^ j) 0 ^^^ basis j := by
  induction k generalizing v with
  | zero =>
    obtain rfl : v = 0 := by omega
    rw [Nat.zero_testBit] at hj
    cases hj
  | succ k ih =>
    have hjk : j < k + 1 := by
      by_contra hle
      rw [Nat.testBit_lt_two_pow (Nat.lt_of_lt_of_le hv (Nat.pow_le_pow_right (by decide) (by omega)))]
        at hj
      cases hj
    have hpow : 2 ^ j < 2 ^ (k + 1) := Nat.pow_lt_pow_right (by decide) hjk
    rw [getD_spanTable_succ basis hv, getD_spanTable_succ basis (Nat.xor_lt_two_pow hv hpow),
      Nat.xor_mod_two_pow, Nat.testBit_xor, Nat.testBit_two_pow]
    rcases Nat.lt_or_eq_of_le (Nat.le_of_lt_succ hjk) with hlow | rfl
    · have hrest : v % 2 ^ k < 2 ^ k := Nat.mod_lt _ (by positivity)
      have hdigit : (v % 2 ^ k).testBit j = true := by
        rw [Nat.testBit_mod_two_pow, hj, decide_eq_true hlow]
        rfl
      have hmod : 2 ^ j % 2 ^ k = 2 ^ j := Nat.mod_eq_of_lt (Nat.pow_lt_pow_right (by decide) hlow)
      have hne : decide (j = k) = false := decide_eq_false (by omega)
      rw [ih hrest hdigit, hmod, hne, Bool.xor_false, BitVec.xor_assoc, BitVec.xor_assoc,
        BitVec.xor_comm (basis j)]
    · rw [hj, Nat.mod_self, Nat.xor_zero, decide_eq_true rfl, Bool.xor_self, cond_true, cond_false]
      exact congrArg (· ^^^ basis j) (BitVec.xor_zero).symm

namespace FixedFactor

variable (m : FixedFactor w) (hw : 0 < w)
include hw

theorem two_pow_chunk_bits_le : 2 ^ m.chunk.bits ≤ 2 ^ (32 * w) :=
  Nat.pow_le_pow_right (by decide) (chunk_bits_le hw)

/-- The first table holds the products of the factor. -/
theorem getD_products {v : Nat} (hv : v < 2 ^ m.chunk.bits) :
    m.products.getD v 0 = m.field.multiply m.factor (BitVec.ofNat (32 * w) v) := by
  have := m.field.charP_adjoinRoot hw
  have hroot := m.field.isRoot_root hw
  apply BinaryField.value_injective (f := m.field) hw
  rw [BinaryField.value_multiply hw, BinaryField.value, valueAt_products hroot hw hv]
  show _ = _ * valueAt _ (BitVec.ofNat (32 * w) v)
  rw [valueAt_ofNat_of_lt _ (Nat.lt_of_lt_of_le hv (m.two_pow_chunk_bits_le hw))]
  rfl

/-- The second table holds what stands for the coefficients that a shift pushes out. -/
theorem getD_overflows {v : Nat} (hv : v < 2 ^ m.chunk.bits) :
    m.overflows.getD v 0 = m.field.fold (BitVec.ofNat (32 * w) v) := by
  have := m.field.charP_adjoinRoot hw
  have hroot := m.field.isRoot_root hw
  apply BinaryField.value_injective (f := m.field) hw
  rw [BinaryField.value, valueAt_overflows hroot hw hv, BinaryField.value,
    BinaryField.valueAt_fold hroot hw,
    valueAt_ofNat_of_lt _ (Nat.lt_of_lt_of_le hv (m.two_pow_chunk_bits_le hw)), mul_comm]

end FixedFactor

/-! ## Filling in -/

theorem xor_two_pow_lt {v j : Nat} (hj : v.testBit j = true) : v ^^^ 2 ^ j < v := by
  refine Nat.lt_of_testBit j ?_ hj ?_
  · rw [Nat.testBit_xor, hj, Nat.testBit_two_pow_self]
    rfl
  · intro i hi
    rw [Nat.testBit_xor, Nat.testBit_two_pow_of_ne (Nat.ne_of_lt hi), Bool.xor_false]

/-- The lowest digit alone. -/
def lowestDigit (v : BitVec 64) : BitVec 64 := v &&& -v

theorem lowestDigit_eq_twoPow {v : BitVec 64} (hv : v ≠ 0) :
    lowestDigit v = BitVec.twoPow 64 v.ctz.toNat := by
  apply BitVec.eq_of_getLsbD_eq
  intro i hi
  rw [lowestDigit, BitVec.getLsbD_and, BitVec.getLsbD_neg, BitVec.getLsbD_twoPow]
  have hlowest : v.getLsbD v.ctz.toNat = true := BitVec.getLsbD_true_ctz_of_ne_zero hv
  rcases Nat.lt_trichotomy i v.ctz.toNat with hbelow | rfl | habove
  · rw [BitVec.getLsbD_false_of_lt_ctz hbelow, decide_eq_false (Nat.ne_of_gt hbelow), Bool.and_false]
    rfl
  · have hnone : ¬ ∃ j < v.ctz.toNat, v.getLsbD j = true := by
      rintro ⟨j, hj, hset⟩
      rw [BitVec.getLsbD_false_of_lt_ctz hj] at hset
      cases hset
    rw [hlowest, decide_eq_false hnone, decide_eq_true hi, decide_eq_true rfl]
    rfl
  · -- the negative is the complement there
    have hsome : ∃ j < i, v.getLsbD j = true := ⟨_, habove, hlowest⟩
    rw [decide_eq_true hsome, decide_eq_true hi, decide_eq_false (Nat.ne_of_lt habove), Bool.and_true,
      Bool.xor_true, Bool.and_not_self, Bool.and_false]

theorem ctz_twoPow {j : Nat} (hj : j < 64) : (BitVec.twoPow 64 j).ctz.toNat = j := by
  have hset : (BitVec.twoPow 64 j).getLsbD j = true := by
    rw [BitVec.getLsbD_twoPow, decide_eq_true hj, decide_eq_true rfl]
    rfl
  have hne : BitVec.twoPow 64 j ≠ 0 := by
    intro hzero
    rw [hzero] at hset
    cases hset.symm.trans BitVec.getLsbD_zero
  have hlowest := BitVec.getLsbD_true_ctz_of_ne_zero hne
  rw [BitVec.getLsbD_twoPow, Bool.and_eq_true] at hlowest
  exact (of_decide_eq_true hlowest.2).symm

/-- Fills in entry `v`, from the entry without its lowest digit. -/
def fillEntry (basis : Nat → Element w) (table : Array (Element w)) (v : Nat) : Array (Element w) :=
  let low := lowestDigit (BitVec.ofNat 64 v)
  table.setIfInBounds v (table.getD (v ^^^ low.toNat) 0 ^^^ basis low.ctz.toNat)

/-- A table that begins with zeros and is filled in upwards, from entry 1 on. -/
def filledTable (basis : Nat → Element w) (entries : Nat) : Array (Element w) :=
  (List.range' 1 (entries - 1)).foldl (fillEntry basis) (Array.replicate entries 0)

theorem size_foldl_fillEntry (basis : Nat → Element w) (vs : List Nat) (table : Array (Element w)) :
    (vs.foldl (fillEntry basis) table).size = table.size := by
  induction vs generalizing table with
  | nil => rfl
  | cons v vs ih => rw [List.foldl_cons, ih, fillEntry, Array.size_setIfInBounds]

/-- The entry that is filled in is what the one without a digit gives, and no other is touched. -/
theorem exists_getD_fillEntry (basis : Nat → Element w) (table : Array (Element w)) {v : Nat} (hpos : 0 < v)
    (hv : v < table.size) (hword : v < 2 ^ 64) :
    ∃ j, v.testBit j = true ∧ ∀ u, (fillEntry basis table v).getD u 0
      = if u = v then table.getD (v ^^^ 2 ^ j) 0 ^^^ basis j else table.getD u 0 := by
  have hvalue : (BitVec.ofNat 64 v).toNat = v := Nat.mod_eq_of_lt hword
  have hne : BitVec.ofNat 64 v ≠ 0 := by
    intro hzero
    rw [hzero] at hvalue
    exact Nat.ne_of_lt hpos hvalue
  have hset := BitVec.getLsbD_true_ctz_of_ne_zero hne
  have hj : (BitVec.ofNat 64 v).ctz.toNat < 64 := BitVec.lt_of_getLsbD hset
  refine ⟨(BitVec.ofNat 64 v).ctz.toNat, ?_, ?_⟩
  · rwa [BitVec.getLsbD_ofNat, decide_eq_true hj, Bool.true_and] at hset
  · intro u
    rw [fillEntry, lowestDigit_eq_twoPow hne, ctz_twoPow hj, BitVec.toNat_twoPow_of_lt hj,
      Array.getD_eq_getD_getElem?, Array.getElem?_setIfInBounds, if_pos hv, Array.getD_eq_getD_getElem?]
    by_cases hu : u = v
    · rw [if_pos hu.symm, if_pos hu, Option.getD_some]
    · rw [if_neg (Ne.symm hu), if_neg hu, Array.getD_eq_getD_getElem?]

/-- Whatever is filled in so far are the sums. -/
theorem getD_foldl_fillEntry (basis : Nat → Element w) {k n : Nat} (hk : k ≤ 64) (hn : n < 2 ^ k)
    {v : Nat} (hv : v ≤ n) :
    ((List.range' 1 n).foldl (fillEntry basis) (Array.replicate (2 ^ k) 0)).getD v 0
      = (spanTable basis k).getD v 0 := by
  induction n generalizing v with
  | zero =>
    obtain rfl : v = 0 := by omega
    rw [getD_spanTable_zero, Array.getD_eq_getD_getElem?, List.range'_zero, List.foldl_nil,
      Array.getElem?_replicate, if_pos hn, Option.getD_some]
  | succ n ih =>
    have hbefore := fun {v} => ih (Nat.lt_of_succ_lt hn) (v := v)
    rw [List.range'_1_concat, List.foldl_append, Nat.add_comm 1 n]
    have hsize : n + 1 < ((List.range' 1 n).foldl (fillEntry basis) (Array.replicate (2 ^ k) 0)).size := by
      rwa [size_foldl_fillEntry, Array.size_replicate]
    have hword : n + 1 < 2 ^ 64 := Nat.lt_of_lt_of_le hn (Nat.pow_le_pow_right (by decide) hk)
    obtain ⟨j, hj, hentry⟩ := exists_getD_fillEntry basis _ (Nat.succ_pos n) hsize hword
    rw [List.foldl_cons, List.foldl_nil, hentry]
    split
    · next heq =>
      have hless : (n + 1) ^^^ 2 ^ j ≤ n := Nat.le_of_lt_succ (xor_two_pow_lt hj)
      rw [heq, hbefore hless, getD_spanTable_xor basis hn hj]
    · next hne => exact hbefore (by omega)

/-- Filled in entry by entry, a table is what it is when it grows by doubling. -/
theorem filledTable_eq_spanTable (basis : Nat → Element w) {k : Nat} (hk : k ≤ 64) :
    filledTable basis (1 <<< k) = spanTable basis k := by
  have hsize : (filledTable basis (1 <<< k)).size = (spanTable basis k).size := by
    rw [filledTable, size_foldl_fillEntry, Array.size_replicate, size_spanTable]
  apply Array.ext hsize
  intro v hfilled hspan
  have hlt : v < 2 ^ k := by rwa [size_spanTable, Nat.one_shiftLeft] at hspan
  have hentry := getD_foldl_fillEntry basis hk (n := 2 ^ k - 1) (by omega) (v := v) (by omega)
  rw [← Nat.one_shiftLeft, ← filledTable] at hentry
  rwa [Array.getD_eq_getD_getElem?, Array.getD_eq_getD_getElem?, Array.getElem?_eq_getElem hfilled,
    Array.getElem?_eq_getElem hspan] at hentry

/-! ## Words -/

namespace Element

/-- The words, highest first, as bit vectors. -/
def bitWords (a : Element w) : List (BitVec 32) := (List.range w).reverse.map a.word

theorem words_eq (a : Element w) : a.words = a.bitWords.map UInt32.ofBitVec := by
  rw [bitWords, List.map_map]
  rfl

theorem bitWords_zero : (0 : Element w).bitWords = List.replicate w 0 := by
  have hword : ∀ k, (0 : Element w).word k = 0 := fun k => by simp [word]
  rw [bitWords, funext hword, List.map_const', List.length_reverse, List.length_range]

theorem word_xor (a b : Element w) (k : Nat) : word (a ^^^ b) k = word a k ^^^ word b k := by
  apply BitVec.eq_of_getLsbD_eq
  intro i hi
  simp [word, hi]

theorem getLsbD_word (a : Element w) {k i : Nat} (hi : i < 32) :
    (word a k).getLsbD i = a.getLsbD (32 * k + i) := by
  simp [word, hi]

/-- A shift by less than a word moves bits from each word to the next. -/
theorem word_shiftLeft (a : Element w) {c : Nat} (hc : c ≤ 32) {k : Nat} (hk : k < w) :
    word (a <<< c) k
      = (word a k <<< c) ||| (if k = 0 then 0 else word a (k - 1) >>> (32 - c)) := by
  apply BitVec.eq_of_getLsbD_eq
  intro i hi
  have hin : 32 * k + i < 32 * w := by omega
  rw [getLsbD_word _ hi, BitVec.getLsbD_shiftLeft, BitVec.getLsbD_or, BitVec.getLsbD_shiftLeft,
    decide_eq_true hin, decide_eq_true hi]
  by_cases hlow : i < c
  · -- the bit comes from the word below, if there is one
    by_cases hzero : k = 0
    · subst hzero
      simp [hlow]
    · have hfrom : 32 * (k - 1) + (32 - c + i) = 32 * k + i - c := by omega
      have hge : ¬ 32 * k + i < c := by omega
      rw [if_neg hzero, BitVec.getLsbD_ushiftRight, getLsbD_word a (show 32 - c + i < 32 by omega), hfrom]
      simp [hlow, hge]
  · -- the bit stays in its word, and the word below is shifted out of the way
    have hfrom : 32 * k + (i - c) = 32 * k + i - c := by omega
    have hge : ¬ 32 * k + i < c := by omega
    have hnone : (if k = 0 then 0 else word a (k - 1) >>> (32 - c)).getLsbD i = false := by
      split
      · exact BitVec.getLsbD_zero
      · rw [BitVec.getLsbD_ushiftRight]
        exact BitVec.getLsbD_of_ge _ _ (by omega)
    rw [getLsbD_word _ (by omega), hfrom, hnone]
    simp [hlow, hge]

/-- What a shift pushes out is at the top of the highest word. -/
theorem toNat_ushiftRight_top (a : Element w) (hw : 0 < w) {c : Nat} (hc : c ≤ 32) :
    (a >>> (32 * w - c)).toNat = (word a (w - 1) >>> (32 - c)).toNat := by
  apply Nat.eq_of_testBit_eq
  intro i
  rw [BitVec.testBit_toNat, BitVec.testBit_toNat, BitVec.getLsbD_ushiftRight,
    BitVec.getLsbD_ushiftRight]
  by_cases hi : i < c
  · have hfrom : 32 * (w - 1) + (32 - c + i) = 32 * w - c + i := by omega
    rw [getLsbD_word _ (by omega), hfrom]
  · rw [BitVec.getLsbD_of_ge _ _ (by omega), BitVec.getLsbD_of_ge _ _ (by omega)]

/-- A chunk that does not cross the border of a word is cut from this word. -/
theorem extractLsb'_eq_word (a : Element w) {c j k : Nat} (h : j + c ≤ 32) :
    a.extractLsb' (32 * k + j) c = (word a k).extractLsb' j c := by
  apply BitVec.eq_of_getLsbD_eq
  intro i hi
  rw [BitVec.getLsbD_extractLsb', BitVec.getLsbD_extractLsb', getLsbD_word _ (by omega), Nat.add_assoc]

end Element

namespace FixedFactor

variable (m : FixedFactor w)

/-- One Horner step, word by word: each word moves up by a chunk and takes what the word below pushes out,
    and what the highest word pushes out is looked up. -/
theorem word_step (acc : Element w) (chunk : Nat) {k : Nat} (hk : k < w) :
    Element.word (m.step acc chunk) k
      = (Element.word acc k <<< m.chunk.bits
          ||| if k = 0 then 0 else Element.word acc (k - 1) >>> (32 - m.chunk.bits))
        ^^^ Element.word
          (m.overflows.getD (Element.word acc (w - 1) >>> (32 - m.chunk.bits)).toNat 0) k
        ^^^ Element.word (m.products.getD chunk 0) k := by
  have hbits : m.chunk.bits ≤ 32 := by
    match m.chunk with
    | .single => decide
    | .double => decide
  rw [step, Element.word_xor, Element.word_xor, Element.word_shiftLeft acc hbits hk,
    Element.toNat_ushiftRight_top acc (Nat.zero_lt_of_lt hk) hbits]

/-- Takes in the chunks of a word, highest first. -/
def stepWord (acc : Element w) (v : UInt32) : Element w :=
  (List.range (32 / m.chunk.bits)).reverse.foldl
    (fun acc k => m.step acc (v.toBitVec.extractLsb' (m.chunk.bits * k) m.chunk.bits).toNat) acc

theorem horner_eq_foldl (x : Element w) (n : Nat) (acc : Element w) :
    m.horner x n acc = (List.range n).reverse.foldl
      (fun acc k => m.step acc (x.extractLsb' (m.chunk.bits * k) m.chunk.bits).toNat) acc := by
  induction n generalizing acc with
  | zero => rfl
  | succ n ih =>
    rw [horner, ih, List.range_succ, List.reverse_concat, List.foldl_cons]

theorem chunk_bits_mul_chunks : m.chunk.bits * (32 / m.chunk.bits) = 32 := by
  match m.chunk with
  | .single => rfl
  | .double => rfl

/-- The chunks of the highest word come first. -/
theorem horner_succ_word (x : Element w) (n : Nat) (acc : Element w) :
    m.horner x (32 / m.chunk.bits * (n + 1)) acc
      = m.horner x (32 / m.chunk.bits * n) (m.stepWord acc (UInt32.ofBitVec (x.word n))) := by
  have hbits := m.chunk_bits_mul_chunks
  have hchunk : ∀ k ∈ (List.range (32 / m.chunk.bits)).reverse,
      x.extractLsb' (m.chunk.bits * (32 / m.chunk.bits * n + k)) m.chunk.bits
        = (Element.word x n).extractLsb' (m.chunk.bits * k) m.chunk.bits := by
    intro k hk
    have hlt : k < 32 / m.chunk.bits := by simpa using hk
    have hle : m.chunk.bits * (k + 1) ≤ m.chunk.bits * (32 / m.chunk.bits) :=
      Nat.mul_le_mul_left _ hlt
    rw [hbits, Nat.mul_succ] at hle
    rw [Nat.mul_add, ← Nat.mul_assoc, hbits]
    exact Element.extractLsb'_eq_word x hle
  rw [horner_eq_foldl, Nat.mul_succ, List.range_add, List.reverse_append, List.foldl_append,
    ← horner_eq_foldl, ← List.map_reverse, List.foldl_map]
  congr 1
  refine List.foldl_ext _ _ _ ?_
  intro acc' k hk
  rw [hchunk k hk]

/-- The operand is taken in word by word, highest first. -/
theorem times_eq_foldl_words (x : Element w) : m.times x = x.words.foldl m.stepWord 0 := by
  have hbits := m.chunk_bits_mul_chunks
  have hpos : 0 < m.chunk.bits := by
    match m.chunk with
    | .single => decide
    | .double => decide
  have hcount : 32 * w / m.chunk.bits = 32 / m.chunk.bits * w := by
    refine Nat.div_eq_of_eq_mul_right hpos ?_
    rw [← Nat.mul_assoc, hbits]
  have hrun : ∀ n acc, m.horner x (32 / m.chunk.bits * n) acc
      = ((List.range n).reverse.map fun k => UInt32.ofBitVec (x.word k)).foldl m.stepWord acc := by
    intro n
    induction n with
    | zero => intro acc; rfl
    | succ n ih =>
      intro acc
      rw [horner_succ_word, ih, List.range_succ, List.reverse_concat, List.map_cons, List.foldl_cons]
  rw [times, hcount, hrun, Element.words_eq, Element.bitWords, List.map_map]
  rfl

/-! ## Word by word -/

/-- The words moved up by `c` digits, highest word first: each takes what the one below pushes out. -/
def shiftUp (c : Nat) : List (BitVec 32) → List (BitVec 32)
  | [] => []
  | [v] => [v <<< c]
  | v :: next :: rest => (v <<< c ||| next >>> (32 - c)) :: shiftUp c (next :: rest)

/-- One Horner step on words. -/
def stepWords (c : Nat) (overflows products : Array (Element w)) (acc : List (BitVec 32))
    (chunk : BitVec 32) : List (BitVec 32) :=
  let top := acc.headD 0 >>> (32 - c)
  let reduced := (shiftUp c acc).zipWith (· ^^^ ·) (overflows.getD top.toNat 0).bitWords
  reduced.zipWith (· ^^^ ·) (products.getD chunk.toNat 0).bitWords

/-- Takes in the chunks of a word, highest first: each is moved down and masked. -/
def takeWord (c : Nat) (overflows products : Array (Element w)) (acc : List (BitVec 32)) (v : BitVec 32) :
    List (BitVec 32) :=
  (List.range (32 / c)).reverse.foldl
    (fun acc k => stepWords c overflows products acc (v >>> (k * c) &&& (1 <<< c - 1))) acc

/-- The product with `factor`, computed with words: the tables are filled in first. -/
def timesWords (field : BinaryField w) (factor : Element w) (chunk : ChunkSize) (x : List (BitVec 32)) :
    List (BitVec 32) :=
  let products := filledTable (field.shiftLeft factor) (1 <<< chunk.bits)
  let overflows := filledTable field.highPower (1 <<< chunk.bits)
  x.foldl (takeWord chunk.bits overflows products) (List.replicate w 0)

theorem shiftUp_map_range (c : Nat) (f : Nat → BitVec 32) (n : Nat) :
    shiftUp c ((List.range n).reverse.map f)
      = (List.range n).reverse.map fun k => f k <<< c ||| if k = 0 then 0 else f (k - 1) >>> (32 - c) := by
  induction n with
  | zero => rfl
  | succ n ih =>
    rw [List.range_succ, List.reverse_concat, List.map_cons, List.map_cons, ← ih]
    cases n with
    | zero => simp [shiftUp]
    | succ n =>
      rw [List.range_succ, List.reverse_concat, List.map_cons, shiftUp, if_neg (Nat.succ_ne_zero n)]
      rfl

theorem zipWith_bitWords (f : Nat → BitVec 32) (a : Element w) :
    ((List.range w).reverse.map f).zipWith (· ^^^ ·) a.bitWords
      = (List.range w).reverse.map fun k => f k ^^^ a.word k := by
  rw [Element.bitWords, List.zipWith_map, List.zipWith_self]

theorem headD_bitWords (hw : 0 < w) (a : Element w) : a.bitWords.headD 0 = a.word (w - 1) := by
  obtain ⟨n, rfl⟩ : ∃ n, w = n + 1 := ⟨w - 1, by omega⟩
  rw [Element.bitWords, List.range_succ, List.reverse_concat]
  rfl

theorem bitWords_step (hw : 0 < w) (acc : Element w) (chunk : BitVec 32) :
    stepWords m.chunk.bits m.overflows m.products acc.bitWords chunk
      = (m.step acc chunk.toNat).bitWords := by
  rw [stepWords, headD_bitWords hw, Element.bitWords, shiftUp_map_range, zipWith_bitWords,
    zipWith_bitWords, Element.bitWords]
  apply List.map_congr_left
  intro k hk
  have hlt : k < w := by simpa using hk
  exact (m.word_step acc chunk.toNat hlt).symm

/-- What is moved down and masked is the chunk. -/
theorem toNat_chunk (chunk : ChunkSize) (v : BitVec 32) (k : Nat) :
    (v >>> (k * chunk.bits) &&& (1 <<< chunk.bits - 1)).toNat
      = (v.extractLsb' (chunk.bits * k) chunk.bits).toNat := by
  have hmask : (1 <<< chunk.bits - 1 : BitVec 32).toNat = 2 ^ chunk.bits - 1 := by
    match chunk with
    | .single => rfl
    | .double => rfl
  rw [BitVec.toNat_and, hmask, Nat.and_two_pow_sub_one_eq_mod, BitVec.toNat_ushiftRight,
    BitVec.extractLsb'_toNat, Nat.mul_comm]

theorem bitWords_stepWord (hw : 0 < w) (acc : Element w) (v : BitVec 32) :
    takeWord m.chunk.bits m.overflows m.products acc.bitWords v
      = (m.stepWord acc (UInt32.ofBitVec v)).bitWords := by
  refine List.foldl_hom Element.bitWords ?_
  intro acc' k
  rw [m.bitWords_step hw, toNat_chunk]

/-- Words give the words of the product. -/
theorem timesWords_eq_bitWords_times (field : BinaryField w) (factor : Element w) (chunk : ChunkSize)
    (x : Element w) :
    timesWords field factor chunk x.bitWords = ((ofElement field factor chunk).times x).bitWords := by
  rcases Nat.eq_zero_or_pos w with rfl | hw
  · rfl
  · have hk : chunk.bits ≤ 64 := by
      match chunk with
      | .single => decide
      | .double => decide
    rw [timesWords, filledTable_eq_spanTable _ hk, filledTable_eq_spanTable _ hk, times_eq_foldl_words,
      Element.words_eq, List.foldl_map, ← Element.bitWords_zero]
    exact List.foldl_hom Element.bitWords fun acc v =>
      (ofElement field factor chunk).bitWords_stepWord hw acc v

/-! ## Products -/

/-- Whatever the chunk size, the tables of a factor multiply by it, so that the chunk sizes agree.  Tables
    that are filled in entry by entry, and steps made with words, give the words of the product. -/
theorem times_ofElement (modulus : UInt32) (factor a : Element w) :
    (∀ chunk, (ofElement (.ofModulus modulus) factor chunk).times a
        = (BinaryField.ofModulus modulus).multiply factor a)
      ∧ (ofElement (.ofModulus modulus) factor .single).times a
        = (ofElement (.ofModulus modulus) factor .double).times a
      ∧ ∀ chunk, timesWords (.ofModulus modulus) factor chunk a.bitWords
        = ((BinaryField.ofModulus modulus).multiply factor a).bitWords := by
  have hfield : ∀ chunk, (ofElement (.ofModulus modulus) factor chunk).times a
      = (BinaryField.ofModulus modulus).multiply factor a := by
    intro chunk
    by_cases hw : w = 0
    · -- there is only one element
      subst hw
      exact BitVec.eq_of_toNat_eq (by omega)
    · exact times_eq_multiply (ofElement (.ofModulus modulus) factor chunk) (Nat.pos_of_ne_zero hw) a
  refine ⟨hfield, ?_, ?_⟩
  · rw [hfield .single, hfield .double]
  · intro chunk
    rw [timesWords_eq_bitWords_times, hfield chunk]

end FixedFactor

end OneTimeChannel.Gf2

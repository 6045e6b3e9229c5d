/-
  Polynomials over the two-element field, as bit vectors.

  An `Element w` has `32 * w` coefficients, and bit `i` is the coefficient of `x ^ i`.  Addition is
  therefore the `^^^` of `BitVec`.  This file adds the views that leave the library: single
  coefficients, the degree, 32-bit words and the byte string in network order, highest coefficient
  first.  Low coefficients are dropped word by word (`shiftRight`).

  Core only.
-/
import OneTimeChannel.Text.Hex

namespace OneTimeChannel.Gf2

/-- A polynomial over the two-element field of degree below `32 * w`. -/
abbrev Element (w : Nat) := BitVec (32 * w)

namespace Element

variable {w : Nat}

/-- The polynomial whose 32 lowest coefficients are the bits of `v`. -/
def ofLowBits (v : UInt32) : Element w := BitVec.ofNat _ v.toNat

/-- The constant polynomial 1. -/
def one : Element w := ofLowBits 1

/-! ## Coefficients -/

/-- The coefficient of `x ^ i`, or `none` if `i` is no position of the element. -/
def coefficient? (a : Element w) (i : Nat) : Option Bool :=
  if i < 32 * w then some (a.getLsbD i) else none

/-- The element with the coefficient of `x ^ i` set to one. -/
def insert? (a : Element w) (i : Nat) : Option (Element w) :=
  if i < 32 * w then some (a ||| BitVec.twoPow _ i) else none

/-- The greatest `i` with a coefficient of `x ^ i`, or `none` for zero. -/
def degree? (a : Element w) : Option Nat :=
  if a = 0 then none else some a.toNat.log2

/-! ## Words and bytes -/

/-- The word with the coefficients of `x ^ (32 * k)` to `x ^ (32 * k + 31)`. -/
def word (a : Element w) (k : Nat) : BitVec 32 := a.extractLsb' (32 * k) 32

/-- The element with these words, lowest first. -/
def ofWords (ws : List (BitVec 32)) : Element w :=
  BitVec.ofNat _ (ws.foldr (fun v n => v.toNat + n <<< 32) 0)

/-- The element without the coefficients below `x ^ n`, the others `n` places lower.  Each word is
    made of a word further up and, if `n` does not come out even, of the word above that one. -/
def shiftRight (a : Element w) (n : Nat) : Element w :=
  if 32 * w ≤ n then 0
  else ofWords ((List.range w).map fun k =>
    (a.word (k + n / 32) >>> (n % 32))
      ||| (if n % 32 = 0 then 0 else a.word (k + n / 32 + 1) <<< (32 - n % 32)))

/-- The 32-bit words, highest first. -/
def words (a : Element w) : List UInt32 :=
  (List.range w).reverse.map fun k => UInt32.ofNat (a.toNat >>> (32 * k))

/-- The `4 * w` bytes, highest first. -/
def toBytes (a : Element w) : Bytes := BigEndian.ofNat (4 * w) a.toNat

@[simp] theorem length_toBytes (a : Element w) : a.toBytes.length = 4 * w := by
  simp [toBytes]

/-- The element with these `4 * w` bytes; any other number of bytes is refused. -/
def ofBytes? (bs : Bytes) : Option (Element w) :=
  if bs.length = 4 * w then some (BitVec.ofNat _ (BigEndian.toNat bs)) else none

/-- The element whose highest bytes are `bs` and whose other bytes are zero. -/
def ofLeadingBytes? (bs : Bytes) : Option (Element w) :=
  if bs.length ≤ 4 * w then
    some (BitVec.ofNat _ (BigEndian.toNat bs <<< (8 * (4 * w - bs.length))))
  else none

/-- The width and the words in hexadecimal. -/
def description (a : Element w) : String :=
  let digits := a.words.map fun v => Hex.encode (BigEndian.ofNat 4 v.toNat)
  s!"Blob<{32 * w}>({String.join digits})"

/-- The bytes have the value of the element. -/
theorem toNat_toBytes (a : Element w) : BigEndian.toNat a.toBytes = a.toNat := by
  have hbits : 1 <<< (8 * (4 * w)) = 2 ^ (32 * w) := by
    rw [Nat.one_shiftLeft, ← Nat.mul_assoc]
  rw [toBytes, BigEndian.toNat_ofNat, hbits, Nat.mod_eq_of_lt a.isLt]

/-- Writing and reading an element gives it back. -/
theorem ofBytes?_toBytes (a : Element w) : ofBytes? a.toBytes = some a := by
  rw [ofBytes?, if_pos a.length_toBytes, toNat_toBytes, BitVec.ofNat_toNat, BitVec.setWidth_eq]

theorem toBytes_injective : Function.Injective (toBytes (w := w)) := by
  intro a b hab
  have hread := congrArg (ofBytes? (w := w)) hab
  rwa [ofBytes?_toBytes, ofBytes?_toBytes, Option.some_inj] at hread

/-- Reading and writing `4 * w` bytes gives them back. -/
theorem toBytes_of_ofBytes?_eq_some {bs : Bytes} {a : Element w} (h : ofBytes? bs = some a) :
    a.toBytes = bs := by
  unfold ofBytes? at h
  split at h
  · next hlen =>
    have hlt := BigEndian.toNat_lt bs
    rw [hlen, Nat.one_shiftLeft, ← Nat.mul_assoc] at hlt
    cases h
    simp only [toBytes, BitVec.toNat_ofNat, Nat.mod_eq_of_lt hlt, ← hlen]
    exact BigEndian.ofNat_toNat bs
  · cases h

end Element

end OneTimeChannel.Gf2

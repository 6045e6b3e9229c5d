/-
  The evaluation hash is the value of a polynomial.

  Data is cut into blocks call by call, and a block that is not full is filled up with zero bytes
  (`blocksOf`).  Each block takes the tag from `t` to `(t + block) * alpha`, a Horner step, so that the blocks
  `b 0`, …, `b (n - 1)` take it to

    t * alpha ^ n + b 0 * alpha ^ n + b 1 * alpha ^ (n - 1) + … + b (n - 1) * alpha

  where products and powers are those of the field (`evaluate`).  The sum is taken in the quotient ring of
  the reducing polynomial, into which elements are embedded with their products and sums; neither the tables
  nor their size are left in it.
-/
import OneTimeChannel.Proofs.Cipher.Recreation
import OneTimeChannel.Proofs.Gf2.Product
import OneTimeChannel.Proofs.Gf2.Views

namespace OneTimeChannel

open Gf2 (BinaryField ChunkSize Element FixedFactor Width xorSum)

/-! ## Values of polynomials in a field -/

namespace Gf2.BinaryField

variable {w : Nat}

/-- The powers of an element. -/
def power (f : BinaryField w) (a : Element w) : Nat → Element w
  | 0 => Element.one
  | n + 1 => f.multiply (f.power a n) a

/-- The sum of `start * point ^ n` and of each block `i` times `point ^ (n - i)`, for `n` blocks. -/
def evaluate (f : BinaryField w) (point start : Element w) (blocks : List (Element w)) : Element w :=
  f.multiply start (f.power point blocks.length)
    ^^^ xorSum (fun i => f.multiply (blocks.getD i 0) (f.power point (blocks.length - i))) blocks.length

variable {f : BinaryField w} (hw : 0 < w)
include hw

theorem value_power (a : Element w) (n : Nat) : f.value (f.power a n) = f.value a ^ n := by
  induction n with
  | zero => rw [power, value_one hw, pow_zero]
  | succ n ih => rw [power, value_multiply hw, ih, pow_succ]

theorem value_evaluate (point start : Element w) (blocks : List (Element w)) :
    f.value (f.evaluate point start blocks) = f.value start * f.value point ^ blocks.length
      + ∑ i ∈ Finset.range blocks.length,
          f.value (blocks.getD i 0) * f.value point ^ (blocks.length - i) := by
  rw [evaluate, value_xor hw, value_multiply hw, value_power hw, value_xorSum hw]
  congr 1
  refine Finset.sum_congr rfl fun i _ => ?_
  rw [value_multiply hw, value_power hw]

theorem evaluate_nil (point start : Element w) : f.evaluate point start [] = start := by
  apply value_injective (f := f) hw
  rw [value_evaluate hw]
  simp

/-- A Horner step takes in the first block. -/
theorem evaluate_cons (point start block : Element w) (blocks : List (Element w)) :
    f.evaluate point start (block :: blocks)
      = f.evaluate point (f.multiply point (start ^^^ block)) blocks := by
  apply value_injective (f := f) hw
  rw [value_evaluate hw, value_evaluate hw, value_multiply hw, value_xor hw, List.length_cons,
    Finset.sum_range_succ']
  simp only [List.getD_cons_succ, List.getD_cons_zero, Nat.add_sub_add_right, Nat.sub_zero, pow_succ]
  ring

end Gf2.BinaryField

/-! ## Blocks -/

theorem length_pieces {size : Nat} (hsize : size ≠ 0) (data : Bytes) :
    (pieces size data).length = pieceCount size data.length := by
  fun_induction pieces size data with
  | case1 data hend =>
    obtain rfl : data = [] := hend.resolve_right hsize
    rw [List.length_nil, List.length_nil, pieceCount, Nat.div_eq_of_lt (by omega)]
  | case2 data hmore ih =>
    have hpos : data.length ≠ 0 := by
      intro hzero
      exact hmore (Or.inl (List.eq_nil_of_length_eq_zero hzero))
    rw [List.length_cons, ih, List.length_drop, pieceCount, pieceCount]
    by_cases hle : data.length ≤ size
    · -- this is the last piece
      rw [Nat.sub_eq_zero_of_le hle, Nat.div_eq_of_lt (by omega),
        Nat.div_eq_of_lt_le (k := 1) (by omega) (by omega)]
    · have hcount : data.length + size - 1 = data.length - size + size - 1 + size := by omega
      rw [hcount, Nat.add_div_right _ (Nat.pos_of_ne_zero hsize)]

/-- Nothing is lost in cutting. -/
theorem flatten_pieces {size : Nat} (hsize : size ≠ 0) (data : Bytes) :
    (pieces size data).flatten = data := by
  fun_induction pieces size data with
  | case1 data hend =>
    obtain rfl : data = [] := hend.resolve_right hsize
    rfl
  | case2 data hmore ih => rw [List.flatten_cons, ih, List.take_append_drop]

/-- Filling up is reading the piece with zero bytes behind it. -/
theorem Gf2.Element.ofBytes?_append_zeros {w : Nat} {piece : Bytes} (h : piece.length ≤ 4 * w) :
    Element.ofBytes? (piece ++ List.replicate (4 * w - piece.length) 0)
      = some (Element.padded w piece) := by
  rw [← ofLeadingBytes?_eq_ofBytes?, ofLeadingBytes?_of_le h]

namespace EvaluationHash

/-- The blocks of a sequence of calls, each of which fills up its own last block. -/
def blocksOf (k : Width) (calls : List Bytes) : List (Element k.words) :=
  calls.flatMap fun data => (pieces k.bytes data).map (Element.padded k.words)

theorem blocksOf_cons (k : Width) (data : Bytes) (calls : List Bytes) :
    blocksOf k (data :: calls) = (pieces k.bytes data).map (Element.padded k.words) ++ blocksOf k calls :=
  List.flatMap_cons

/-! ## The tag -/

/-- Takes in one byte string after the other, and adds up the blocks that are reported. -/
def absorbEach (h : EvaluationHash) : List Bytes → Except Fault (EvaluationHash × Nat)
  | [] => .ok (h, 0)
  | data :: calls =>
    match h.absorb data with
    | .error fault => .error fault
    | .ok h' =>
      match absorbEach h' calls with
      | .error fault => .error fault
      | .ok (h'', count) => .ok (h'', h.blockCount data + count)

variable (h : EvaluationHash)

theorem absorb_eq (data : Bytes) : h.absorb data = .ok { h with tag := h.digest h.tag data } := by
  rw [absorb, h.tagAfter_eq]

/-- One block is one Horner step, whatever the tables. -/
theorem afterBlock_eq (tag block : Element h.width.words) :
    h.afterBlock tag block = h.width.field.multiply h.alpha.factor (tag ^^^ block) := by
  rw [afterBlock, h.alpha.times_eq_multiply h.width.words_pos, h.field_eq]

theorem foldl_afterBlock (tag : Element h.width.words) (blocks : List (Element h.width.words)) :
    blocks.foldl h.afterBlock tag = h.width.field.evaluate h.alpha.factor tag blocks := by
  have hw := h.width.words_pos
  induction blocks generalizing tag with
  | nil => exact (BinaryField.evaluate_nil hw _ _).symm
  | cons block blocks ih => rw [List.foldl_cons, ih, h.afterBlock_eq, ← BinaryField.evaluate_cons hw]

/-- The calls take in their blocks, one after the other. -/
theorem absorbEach_eq_foldl (calls : List Bytes) :
    h.absorbEach calls
      = .ok ({ h with tag := (blocksOf h.width calls).foldl h.afterBlock h.tag },
          (blocksOf h.width calls).length) := by
  induction calls generalizing h with
  | nil => rfl
  | cons data calls ih =>
    have hpieces : (pieces h.width.bytes data).length = h.blockCount data :=
      length_pieces h.bytes_pos.ne' data
    have hdigest : h.digest h.tag data
        = ((pieces h.width.bytes data).map (Element.padded h.width.words)).foldl h.afterBlock h.tag := by
      rw [List.foldl_map]
      rfl
    rw [blocksOf_cons, List.foldl_append, List.length_append, List.length_map, hpieces, ← hdigest,
      absorbEach, h.absorb_eq]
    dsimp only
    rw [ih { h with tag := h.digest h.tag data }]
    rfl

theorem absorbEach_eq (calls : List Bytes) :
    h.absorbEach calls
      = .ok ({ h with tag := h.width.field.evaluate h.alpha.factor h.tag (blocksOf h.width calls) },
          (blocksOf h.width calls).length) := by
  rw [h.absorbEach_eq_foldl, h.foldl_afterBlock]

/-- A key of the width that is not zero makes a hash, with tables of either size. -/
theorem ofKey?_eq_some {k : Width} {initKey : Key} {alpha : Element k.words} (chunk : ChunkSize)
    (hkey : Element.ofBytes? initKey.bytes = some alpha) (hne : alpha ≠ 0) :
    ofKey? initKey chunk = some
      { width := k, alpha := .ofElement k.field alpha chunk, tag := 0, field_eq := rfl
        alpha_ne_zero := hne } := by
  have hlength : initKey.length = k.bytes := by
    rw [Key.length, ← Element.toBytes_of_ofBytes?_eq_some hkey, Element.length_toBytes]
    rfl
  rw [ofKey?, hlength, Width.ofBytes?_bytes]
  dsimp only
  rw [hkey]
  simp only [hne, dite_false]

/-- For every width, every init key that is not zero, tables of either size, every state to begin with and
    every sequence of calls: the number of blocks that are reported is the number of blocks, the state is
    the value of the polynomial of the blocks at `alpha`, and the result is this value under the final
    key. -/
theorem absorbEach_evaluates (k : Width) (chunk : ChunkSize) (initKey finalKey : Key) (state : Bytes)
    (calls : List Bytes) {alpha start : Element k.words}
    (hkey : Element.ofBytes? initKey.bytes = some alpha) (hne : alpha ≠ 0)
    (hstate : Element.ofBytes? state = some start) (hfinal : finalKey.length = k.bytes) :
    ∃ fresh begun ended spent, ofKey? initKey chunk = some fresh ∧ fresh.withTag? state = some begun
      ∧ begun.absorbEach calls = .ok (ended, (blocksOf k calls).length)
      ∧ ended.tag.toBytes = (k.field.evaluate alpha start (blocksOf k calls)).toBytes
      ∧ ended.finish finalKey = .ok (spent, List.zipWith (· ^^^ ·)
          (k.field.evaluate alpha start (blocksOf k calls)).toBytes finalKey.bytes) := by
  let fresh : EvaluationHash :=
    { width := k, alpha := .ofElement k.field alpha chunk, tag := 0, field_eq := rfl, alpha_ne_zero := hne }
  let begun : EvaluationHash := { fresh with tag := start }
  let ended : EvaluationHash :=
    { fresh with tag := k.field.evaluate alpha start (blocksOf k calls) }
  have hbegun : fresh.withTag? state = some begun := by
    have hread : (Element.ofBytes? state : Option (Element fresh.width.words)) = some start := hstate
    rw [withTag?, hread]
  have hmask : ended.tag.toBytes.length = finalKey.bytes.length := by
    rw [Element.length_toBytes]
    exact hfinal.symm
  have hfinish : ended.finish finalKey
      = .ok ({ ended with tag := 0 }, List.zipWith (· ^^^ ·) ended.tag.toBytes finalKey.bytes) := by
    rw [finish, mask?_of_length_eq hmask]
  exact ⟨fresh, begun, ended, { ended with tag := 0 }, ofKey?_eq_some chunk hkey hne, hbegun,
    begun.absorbEach_eq calls, rfl, hfinish⟩

/-- Two calls, the first of a full block and one byte, the second of one byte. -/
theorem absorbEach_evaluates_twoCalls :
    ∃ fresh begun ended spent, ofKey? ⟨[0x61, 0x62, 0x63, 0x64]⟩ .double = some fresh
      ∧ fresh.withTag? [0, 0, 0, 1] = some begun
      ∧ begun.absorbEach [[1, 2, 3, 4, 5], [6]] = .ok (ended, 3)
      ∧ ended.tag.toBytes = [90, 14, 53, 31]
      ∧ ended.finish ⟨[1, 1, 1, 1]⟩ = .ok (spent, [91, 15, 52, 30]) := by
  have hblocks : blocksOf .bits32 [[1, 2, 3, 4, 5], [6]]
      = ([0x01020304, 0x05000000, 0x06000000] : List (Element Width.bits32.words)) := by
    cbv
  have hvalue : (Width.bits32.field.evaluate (0x61626364 : Element Width.bits32.words) 1
      [0x01020304, 0x05000000, 0x06000000]).toBytes = [90, 14, 53, 31] := by
    decide +kernel
  have hkey : Element.ofBytes? [0x61, 0x62, 0x63, 0x64]
      = some (0x61626364 : Element Width.bits32.words) := rfl
  have hstate : Element.ofBytes? [0, 0, 0, 1] = some (1 : Element Width.bits32.words) := rfl
  have hevaluates := absorbEach_evaluates .bits32 .double ⟨[0x61, 0x62, 0x63, 0x64]⟩ ⟨[1, 1, 1, 1]⟩
    [0, 0, 0, 1] [[1, 2, 3, 4, 5], [6]] hkey (by decide) hstate rfl
  rw [hblocks, hvalue] at hevaluates
  exact hevaluates

end EvaluationHash

end OneTimeChannel

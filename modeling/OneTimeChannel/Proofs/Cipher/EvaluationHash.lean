/-
  The evaluation hash tells messages apart that differ in one block.

  Absorbing never fails, and what it leaves as the tag is a fold over the blocks of the data
  (`tagAfter_eq`).  Multiplication by `alpha` is injective, since `alpha` is not zero and its ring is a
  field; hence

  * different tags stay different whatever is absorbed (`digest_injective`), and
  * data of one length that differs in one block only leads to different tags (`digest_ne`).

  For differences in several blocks this is false: they may cancel, and whether they do depends on
  the secret `alpha`.
-/
import OneTimeChannel.Cipher.EvaluationHash
import OneTimeChannel.Proofs.Gf2.Laws

namespace OneTimeChannel

open Gf2 (Element FixedFactor Width valueAt)

/-! ## Products with a fixed factor -/

/-- Multiplying by an element that is not zero loses nothing. -/
theorem Gf2.FixedFactor.times_injective {k : Width} (m : FixedFactor k.words)
    (hfield : m.field = k.field) (hfactor : m.factor ≠ 0) : Function.Injective m.times := by
  intro a b hab
  have hw := k.words_pos
  rw [m.times_eq_multiply hw, m.times_eq_multiply hw, hfield] at hab
  exact k.injective_multiply_iff.2 hfactor hab

/-! ## Blocks -/

/-- Data cut into pieces of one size; the last one may be shorter. -/
def pieces (size : Nat) (data : Bytes) : List Bytes :=
  if _h : data = [] ∨ size = 0 then []
  else data.take size :: pieces size (data.drop size)
termination_by data.length
decreasing_by
  have : data.length ≠ 0 := fun e => by simp_all
  simp only [List.length_drop]
  omega

theorem pieces_nil (size : Nat) : pieces size [] = [] := by
  rw [pieces, dif_pos (Or.inl rfl)]

theorem pieces_of_ne_nil {size : Nat} (hsize : size ≠ 0) {data : Bytes} (hdata : data ≠ []) :
    pieces size data = data.take size :: pieces size (data.drop size) := by
  rw [pieces, dif_neg (by simp [hdata, hsize])]

/-- The element with the bytes of a piece in front and zeros behind. -/
def Gf2.Element.padded (w : Nat) (piece : Bytes) : Element w :=
  BitVec.ofNat _ (BigEndian.toNat piece <<< (8 * (4 * w - piece.length)))

theorem Gf2.Element.ofLeadingBytes?_of_le {w : Nat} {piece : Bytes} (h : piece.length ≤ 4 * w) :
    Element.ofLeadingBytes? piece = some (Element.padded w piece) :=
  if_pos h

/-- Pieces of one length are told apart by their elements. -/
theorem Gf2.Element.eq_of_padded_eq {w : Nat} {a b : Bytes} (hlen : a.length = b.length)
    (ha : a.length ≤ 4 * w) (h : Element.padded w a = Element.padded w b) : a = b := by
  have hbound : ∀ c : Bytes, c.length ≤ 4 * w →
      BigEndian.toNat c <<< (8 * (4 * w - c.length)) < 2 ^ (32 * w) := by
    intro c hc
    have hbits : 32 * w = 8 * c.length + 8 * (4 * w - c.length) := by omega
    have hlt := BigEndian.toNat_lt c
    rw [Nat.one_shiftLeft] at hlt
    rw [Nat.shiftLeft_eq, hbits, Nat.pow_add]
    exact Nat.mul_lt_mul_of_pos_right hlt (by positivity)
  have hnat := congrArg BitVec.toNat h
  rw [padded, padded, BitVec.toNat_ofNat, BitVec.toNat_ofNat, Nat.mod_eq_of_lt (hbound a ha),
    Nat.mod_eq_of_lt (hbound b (hlen ▸ ha)), hlen, Nat.shiftLeft_eq, Nat.shiftLeft_eq] at hnat
  have hdigits : BigEndian.toNat a = BigEndian.toNat b :=
    Nat.eq_of_mul_eq_mul_right (by positivity) hnat
  rw [← BigEndian.ofNat_toNat a, ← BigEndian.ofNat_toNat b, hlen, hdigits]

/-! ## Absorbing -/

namespace EvaluationHash

variable (h : EvaluationHash)

theorem bytes_pos : 0 < h.bytes := by
  have := h.width.words_pos
  simp only [bytes, Width.bytes]
  omega

theorem bytes_le : h.bytes ≤ 32 := by
  unfold bytes
  cases h.width <;> decide

/-- The tag after more data. -/
def digest (tag : Element h.width.words) (data : Bytes) : Element h.width.words :=
  (pieces h.bytes data).foldl (fun tag piece => h.afterBlock tag (Element.padded _ piece)) tag

@[simp] theorem digest_nil (tag : Element h.width.words) : h.digest tag [] = tag := by
  rw [digest, pieces_nil, List.foldl_nil]

theorem digest_of_ne_nil (tag : Element h.width.words) {data : Bytes} (hdata : data ≠ []) :
    h.digest tag data
      = h.digest (h.afterBlock tag (Element.padded _ (data.take h.bytes))) (data.drop h.bytes) := by
  rw [digest, pieces_of_ne_nil h.bytes_pos.ne' hdata, List.foldl_cons, digest]

/-- Absorbing never fails. -/
theorem tagAfter_eq (tag : Element h.width.words) (data : Bytes) :
    h.tagAfter tag data = .ok (h.digest tag data) := by
  fun_induction h.tagAfter tag data with
  | case1 tag data hend =>
    obtain rfl : data = [] := hend.resolve_right h.bytes_pos.ne'
    rw [digest_nil]
  | case2 tag data hend hnone =>
    have hle : (data.take h.bytes).length ≤ 4 * h.width.words := List.length_take_le _ _
    rw [Element.ofLeadingBytes?_of_le hle] at hnone
    cases hnone
  | case3 tag data hend block hblock ih =>
    have hle : (data.take h.bytes).length ≤ 4 * h.width.words := List.length_take_le _ _
    rw [Element.ofLeadingBytes?_of_le hle] at hblock
    cases hblock
    rw [ih, h.digest_of_ne_nil tag fun hnil => hend (Or.inl hnil)]

theorem afterBlock_injective_left (block : Element h.width.words) :
    Function.Injective fun tag => h.afterBlock tag block := by
  intro a b hab
  exact BitVec.xor_left_inj block |>.1 (h.alpha.times_injective h.field_eq h.alpha_ne_zero hab)

theorem afterBlock_injective_right (tag : Element h.width.words) :
    Function.Injective (h.afterBlock tag) := by
  intro a b hab
  exact BitVec.xor_right_inj tag |>.1 (h.alpha.times_injective h.field_eq h.alpha_ne_zero hab)

/-- Different tags stay different. -/
theorem digest_injective (data : Bytes) : Function.Injective fun tag => h.digest tag data := by
  unfold digest
  induction pieces h.bytes data with
  | nil => exact fun a b hab => hab
  | cons piece rest ih => exact fun a b hab => h.afterBlock_injective_left _ (ih hab)

end EvaluationHash

/-! ## One block -/

/-- Two byte strings of one length that are equal outside their block `k`. -/
structure AgreeOutside (size k : Nat) (a b : Bytes) : Prop where
  length_eq : a.length = b.length
  before : a.take (k * size) = b.take (k * size)
  behind : a.drop ((k + 1) * size) = b.drop ((k + 1) * size)

namespace AgreeOutside

variable {size k : Nat} {a b : Bytes}

/-- Byte strings that differ in a block have one. -/
theorem ne_nil (h : AgreeOutside size k a b) (hne : a ≠ b) : a ≠ [] ∧ b ≠ [] := by
  constructor
  · rintro rfl
    exact hne (List.eq_nil_of_length_eq_zero h.length_eq.symm).symm
  · rintro rfl
    exact hne (List.eq_nil_of_length_eq_zero h.length_eq)

/-- Outside the first block, nothing but the first block is free to differ. -/
theorem take_ne (h : AgreeOutside size 0 a b) (hne : a ≠ b) : a.take size ≠ b.take size := by
  intro htake
  have hdrop : a.drop size = b.drop size := by simpa using h.behind
  exact hne (by rw [← List.take_append_drop size a, htake, hdrop, List.take_append_drop])

/-- The first block is equal if another one may differ. -/
theorem take_eq (h : AgreeOutside size (k + 1) a b) : a.take size = b.take size := by
  have htake := congrArg (List.take size) h.before
  rwa [List.take_take, List.take_take, Nat.min_eq_left (Nat.le_mul_of_pos_left size (by omega))]
    at htake

theorem drop (h : AgreeOutside size (k + 1) a b) :
    AgreeOutside size k (a.drop size) (b.drop size) where
  length_eq := by rw [List.length_drop, List.length_drop, h.length_eq]
  before := by
    have htake := congrArg (List.drop size) h.before
    rwa [List.drop_take, List.drop_take, Nat.succ_mul, Nat.add_sub_cancel] at htake
  behind := by
    have hbehind := h.behind
    rw [Nat.succ_mul, Nat.add_comm] at hbehind
    rwa [List.drop_drop, List.drop_drop]

end AgreeOutside

/-- A difference in one block shows in the tag. -/
theorem EvaluationHash.digest_ne (h : EvaluationHash) (tag : Element h.width.words) {k : Nat}
    {a b : Bytes} (hab : AgreeOutside h.bytes k a b) (hne : a ≠ b) :
    h.digest tag a ≠ h.digest tag b := by
  induction k generalizing tag a b with
  | zero =>
    -- the tags part here and stay apart, since the rest of the data is the same
    obtain ⟨ha, hb⟩ := hab.ne_nil hne
    rw [h.digest_of_ne_nil tag ha, h.digest_of_ne_nil tag hb]
    have hdrop : a.drop h.bytes = b.drop h.bytes := by simpa using hab.behind
    have hlen : (a.take h.bytes).length = (b.take h.bytes).length := by
      rw [List.length_take, List.length_take, hab.length_eq]
    have hle : (a.take h.bytes).length ≤ 4 * h.width.words := List.length_take_le _ _
    rw [hdrop]
    intro heq
    exact hab.take_ne hne (Element.eq_of_padded_eq hlen hle
      (h.afterBlock_injective_right tag (h.digest_injective _ heq)))
  | succ k ih =>
    -- the first block is the same, so the difference is in the rest
    obtain ⟨ha, hb⟩ := hab.ne_nil hne
    rw [h.digest_of_ne_nil tag ha, h.digest_of_ne_nil tag hb, hab.take_eq]
    refine ih _ hab.drop ?_
    intro heq
    exact hne (by rw [← List.take_append_drop h.bytes a, hab.take_eq, heq, List.take_append_drop])

end OneTimeChannel

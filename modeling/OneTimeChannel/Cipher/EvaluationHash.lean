/-
  The evaluation hash, an authenticator with a one-time final key.

  A secret element `alpha` of a binary field is fixed by the init key.  Data is cut into blocks of
  the field width, the last one of each call filled up with zero bytes, and every block moves the
  tag by

    tag := (tag + block) * alpha

  so that the tag is the value at `alpha` of the polynomial whose coefficients are the blocks.
  Finishing masks the tag with a key of the same length.

  `alpha` is never zero: with zero, every message would have the tag zero.

  Core only.
-/
import OneTimeChannel.Gf2.FixedFactor
import OneTimeChannel.Gf2.Width
import OneTimeChannel.Key

namespace OneTimeChannel

open Gf2 (ChunkSize Element FixedFactor Width)

/-- An evaluation hash in progress. -/
structure EvaluationHash where
  width : Width
  /-- The tables for multiplying by `alpha`. -/
  alpha : FixedFactor width.words
  /-- The value of the blocks so far. -/
  tag : Element width.words
  /-- Products are taken in the field of the width. -/
  field_eq : alpha.field = width.field
  alpha_ne_zero : alpha.factor ≠ 0

namespace EvaluationHash

/-- The hash of no data for an init key, whose length selects the field.  Keys of other lengths and
    keys of zeros are refused. -/
def ofKey? (initKey : Key) (chunk : ChunkSize) : Option EvaluationHash :=
  match Width.ofBytes? initKey.length with
  | none => none
  | some width =>
    match Element.ofBytes? initKey.bytes with
    | none => none
    | some (alpha : Element width.words) =>
      if h : alpha = 0 then none
      else some {
        width
        alpha := .ofElement width.field alpha chunk
        tag := 0
        field_eq := rfl
        alpha_ne_zero := h }

variable (h : EvaluationHash)

def initKey : Key := ⟨h.alpha.factor.toBytes⟩

/-- The length of init keys, final keys and tags. -/
def bytes : Nat := h.width.bytes

/-- The tag after one more block. -/
def afterBlock (tag block : Element h.width.words) : Element h.width.words :=
  h.alpha.times (tag ^^^ block)

/-- The tag after more data, cut into blocks. -/
def tagAfter (tag : Element h.width.words) (data : Bytes) :
    Except Fault (Element h.width.words) :=
  if _h : data = [] ∨ h.bytes = 0 then .ok tag
  else match Element.ofLeadingBytes? (data.take h.bytes) with
    | none => .error .blockTooLong
    | some block => tagAfter (h.afterBlock tag block) (data.drop h.bytes)
termination_by data.length
decreasing_by
  have : data.length ≠ 0 := fun e => by simp_all
  simp only [List.length_drop]
  omega

/-- Takes in data. -/
def absorb (data : Bytes) : Except Fault EvaluationHash :=
  match h.tagAfter h.tag data with
  | .ok tag => .ok { h with tag }
  | .error e => .error e

/-- How many blocks `absorb` takes in. -/
def blockCount (data : Bytes) : Nat := pieceCount h.bytes data.length

/-- The masked tag, and the hash with its tag forgotten. -/
def finish (finalKey : Key) : Except Fault (EvaluationHash × Bytes) :=
  match mask? h.tag.toBytes finalKey.bytes with
  | some out => .ok ({ h with tag := 0 }, out)
  | none => .error .unequalLengths

/-- The hash with a given tag, which has to be one field element. -/
def withTag? (state : Bytes) : Option EvaluationHash :=
  match Element.ofBytes? state with
  | some tag => some { h with tag }
  | none => none

end EvaluationHash

end OneTimeChannel

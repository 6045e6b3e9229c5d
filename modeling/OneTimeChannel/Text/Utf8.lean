/-
  UTF-8, read strictly.

  A character takes one to four bytes.  The first byte tells how many follow and, to shut out
  overlong forms, surrogates and numbers beyond the last character, in which range the second one
  lies; all other bytes behind the first lie between 0x80 and 0xbf.

  A byte string that is no text is refused with the position of the first bad sequence.  Its length
  is that of the part that could still have become a character; a sequence cut off by the end of the
  string has no length.

  Core only.
-/
import OneTimeChannel.Bytes

namespace OneTimeChannel.Utf8

/-- A byte string that is no text. -/
structure Error where
  /-- Where the bad sequence starts. -/
  position : Nat
  /-- How long it is, or `none` if the string ends within it. -/
  length : Option Nat
  deriving DecidableEq, Repr

def Error.message (e : Error) : String :=
  match e.length with
  | some n => s!"invalid utf-8 sequence of {n} bytes from index {e.position}"
  | none => s!"incomplete utf-8 byte sequence from index {e.position}"

/-- What a first byte says about its character. -/
structure Lead where
  /-- The bits of the character number in the first byte. -/
  bits : Nat
  /-- How many bytes follow. -/
  following : Nat
  /-- The range of the byte that follows directly. -/
  low : Nat
  high : Nat

/-- The meaning of a first byte of a character outside ASCII. -/
def lead? (b : Nat) : Option Lead :=
  if 0xc2 ≤ b ∧ b ≤ 0xdf then some ⟨b - 0xc0, 1, 0x80, 0xbf⟩
  else if b = 0xe0 then some ⟨0, 2, 0xa0, 0xbf⟩
  else if b = 0xed then some ⟨0xd, 2, 0x80, 0x9f⟩
  else if 0xe1 ≤ b ∧ b ≤ 0xef then some ⟨b - 0xe0, 2, 0x80, 0xbf⟩
  else if b = 0xf0 then some ⟨0, 3, 0x90, 0xbf⟩
  else if 0xf1 ≤ b ∧ b ≤ 0xf3 then some ⟨b - 0xf0, 3, 0x80, 0xbf⟩
  else if b = 0xf4 then some ⟨4, 3, 0x80, 0x8f⟩
  else none

/-- Takes in `k` following bytes, the next of which lies between `low` and `high`; `taken` bytes of
    the character were read before.  An error is the length of the bad sequence. -/
def follow (taken number low high : Nat) : Nat → Bytes → Except (Option Nat) Nat
  | 0, _ => .ok number
  | _ + 1, [] => .error none
  | k + 1, b :: rest =>
    if low ≤ b.toNat ∧ b.toNat ≤ high then
      follow (taken + 1) (64 * number + (b.toNat - 0x80)) 0x80 0xbf k rest
    else .error (some taken)

/-- The character that starts with `b`, and how many bytes follow. -/
def first (b : UInt8) (rest : Bytes) : Except (Option Nat) (Char × Nat) :=
  if b.toNat < 0x80 then .ok (Char.ofNat b.toNat, 0)
  else match lead? b.toNat with
    | none => .error (some 1)
    | some l =>
      match follow 1 l.bits l.low l.high l.following rest with
      | .ok number => .ok (Char.ofNat number, l.following)
      | .error length => .error length

/-- The characters of a byte string; `text` holds those before `position`, last one first. -/
def decodeFrom (position : Nat) (text : List Char) : Bytes → Except Error (List Char)
  | [] => .ok text.reverse
  | b :: rest =>
    match first b rest with
    | .error length => .error ⟨position, length⟩
    | .ok (c, following) =>
      decodeFrom (position + 1 + following) (c :: text) (rest.drop following)
termination_by bs => bs.length
decreasing_by
  simp only [List.length_drop, List.length_cons]
  omega

/-- The text that a byte string encodes. -/
def decode (bs : Bytes) : Except Error String := (decodeFrom 0 [] bs).map String.ofList

/-- The bytes of a text. -/
def encode (s : String) : Bytes := s.toUTF8.toList

end OneTimeChannel.Utf8

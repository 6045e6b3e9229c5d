/-
  The five fields in use.

  The evaluation hash works in a field of 32, 64, 96, 128 or 256 bits; `Width` names them, and the
  moduli are irreducible:

    x^32 + x^7 + x^3 + x^2 + 1      x^128 + x^7 + x^2 + x + 1
    x^64 + x^4 + x^3 + x + 1        x^256 + x^10 + x^5 + x^2 + 1
    x^96 + x^10 + x^9 + x^6 + 1

  Core only.
-/
import OneTimeChannel.Gf2.BinaryField

namespace OneTimeChannel.Gf2

/-- The width of a field in use. -/
inductive Width where
  | bits32
  | bits64
  | bits96
  | bits128
  | bits256
  deriving DecidableEq, Repr

namespace Width

/-- The width in words of 32 bits. -/
def words : Width → Nat
  | bits32 => 1
  | bits64 => 2
  | bits96 => 3
  | bits128 => 4
  | bits256 => 8

def bytes (k : Width) : Nat := 4 * k.words

def bits (k : Width) : Nat := 32 * k.words

def all : List Width := [bits32, bits64, bits96, bits128, bits256]

/-- The width of elements with `n` bytes, if there is one. -/
def ofBytes? (n : Nat) : Option Width := all.find? fun k => k.bytes == n

/-- The width with `n` bits, if there is one. -/
def ofBits? (n : Nat) : Option Width := all.find? fun k => k.bits == n

def modulus : Width → UInt32
  | bits32 => 0x8d
  | bits64 => 0x1b
  | bits96 => 0x641
  | bits128 => 0x87
  | bits256 => 0x425

/-! ## The fields, each built once -/

def field32 : BinaryField 1 := .ofModulus (modulus bits32)
def field64 : BinaryField 2 := .ofModulus (modulus bits64)
def field96 : BinaryField 3 := .ofModulus (modulus bits96)
def field128 : BinaryField 4 := .ofModulus (modulus bits128)
def field256 : BinaryField 8 := .ofModulus (modulus bits256)

/-- The field of a width. -/
def field : (k : Width) → BinaryField k.words
  | bits32 => field32
  | bits64 => field64
  | bits96 => field96
  | bits128 => field128
  | bits256 => field256

theorem field_eq (k : Width) : k.field = .ofModulus k.modulus := by
  cases k <;> rfl

end Width

end OneTimeChannel.Gf2

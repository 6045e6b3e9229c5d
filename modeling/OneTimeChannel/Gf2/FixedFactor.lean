/-
  Multiplication by one fixed element, by table look-up.

  The operand is read in chunks of `c` bits, highest chunk first, in a Horner scheme:

    acc := acc * x ^ c + factor * chunk

  Two tables with an entry for each chunk value make a step cheap: `products` holds
  `factor * v`, and `overflows` holds the remainder of `v * x ^ (32 * w)`, which takes back the
  chunk that a shift by `c` places pushes out.  Both tables are linear in the bits of `v`, so they
  are grown by doubling (`spanTable`).  The chunk size is a matter of speed alone.

  Core only.
-/
import OneTimeChannel.Gf2.BinaryField

namespace OneTimeChannel.Gf2

variable {w : Nat}

/-- How many bits of the operand one table look-up covers. -/
inductive ChunkSize where
  /-- Eight bits: tables of 256 entries. -/
  | single
  /-- Sixteen bits: tables of 65536 entries and half the steps. -/
  | double
  deriving DecidableEq, Repr

namespace ChunkSize

def bits : ChunkSize → Nat
  | single => 8
  | double => 16

end ChunkSize

/-- The sums of every selection from `basis 0`, …, `basis (k - 1)`: entry `v` adds those whose bit
    is set in `v`. -/
def spanTable (basis : Nat → Element w) : Nat → Array (Element w)
  | 0 => #[0]
  | k + 1 =>
    let table := spanTable basis k
    let next := basis k
    table ++ table.map (next ^^^ ·)

@[simp] theorem size_spanTable (basis : Nat → Element w) (k : Nat) :
    (spanTable basis k).size = 1 <<< k := by
  induction k with
  | zero => rfl
  | succ k ih =>
    simp only [spanTable, Array.size_append, Array.size_map, ih, Nat.shiftLeft_succ]
    omega

/-- A field element together with the tables for multiplying by it. -/
structure FixedFactor (w : Nat) where
  /-- The field in which products are taken. -/
  field : BinaryField w
  /-- The element that is multiplied by. -/
  factor : Element w
  chunk : ChunkSize
  /-- The products of the factor with each chunk value. -/
  products : Array (Element w)
  /-- The remainder of `v * x ^ (32 * w)` for each chunk value `v`. -/
  overflows : Array (Element w)
  products_eq : products = spanTable (field.shiftLeft factor) chunk.bits
  overflows_eq : overflows = spanTable field.highPower chunk.bits

namespace FixedFactor

/-- The tables for multiplying by `factor`. -/
def ofElement (field : BinaryField w) (factor : Element w) (chunk : ChunkSize) : FixedFactor w where
  field := field
  factor := factor
  chunk := chunk
  products := spanTable (field.shiftLeft factor) chunk.bits
  overflows := spanTable field.highPower chunk.bits
  products_eq := rfl
  overflows_eq := rfl

/-- The tables follow from the field, the factor and the chunk size. -/
theorem eq_ofElement (m : FixedFactor w) : m = ofElement m.field m.factor m.chunk := by
  cases m with
  | mk field factor chunk products overflows hp ho => subst hp; subst ho; rfl

/-- One Horner step: the accumulator moves up by one chunk, the chunk that leaves at the top comes
    back as its remainder, and the product with the next chunk is added. -/
def step (m : FixedFactor w) (acc : Element w) (chunk : Nat) : Element w :=
  (acc <<< m.chunk.bits)
    ^^^ m.overflows.getD (acc >>> (32 * w - m.chunk.bits)).toNat 0
    ^^^ m.products.getD chunk 0

/-- Takes in the `k` lowest chunks of `x`, highest first. -/
def horner (m : FixedFactor w) (x : Element w) : Nat → Element w → Element w
  | 0, acc => acc
  | k + 1, acc => m.horner x k (m.step acc (x.extractLsb' (m.chunk.bits * k) m.chunk.bits).toNat)

/-- The product of the factor with `x`. -/
def times (m : FixedFactor w) (x : Element w) : Element w :=
  m.horner x (32 * w / m.chunk.bits) 0

end FixedFactor

end OneTimeChannel.Gf2

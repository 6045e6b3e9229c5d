/-
  Checksums of the content of frames: the 32 low bits of a 64-bit hash.

  The hash runs over stripes of 32 bytes, each cut into four words for four lanes that do not see
  each other.  Then the lanes are merged, the length is added, the bytes left over are mixed in as
  words, half a word and single bytes, and a last round spreads every bit over the result.

  Core only.
-/
import OneTimeChannel.Bytes

namespace OneTimeChannel.Compression.Checksum

/-! ## Words -/

/-- The five multipliers. -/
def prime1 : UInt64 := 0x9E3779B185EBCA87

def prime2 : UInt64 := 0xC2B2AE3D27D4EB4F

def prime3 : UInt64 := 0x165667B19E3779F9

def prime4 : UInt64 := 0x85EBCA77C2B2AE63

def prime5 : UInt64 := 0x27D4EB2F165667C5

/-- Turns the bits to the left, by more than 0 and less than 64. -/
def rotate (x count : UInt64) : UInt64 := (x <<< count) ||| (x >>> (64 - count))

/-- The word in the first bytes, lowest byte first. -/
def word (size : Nat) (bs : Bytes) : UInt64 := UInt64.ofNat (LittleEndian.toNat (bs.take size))

/-- Mixes a word into a lane. -/
def mix (lane w : UInt64) : UInt64 := rotate (lane + w * prime2) 31 * prime1

/-! ## Stripes -/

/-- The state of the four lanes. -/
structure Lanes where
  first : UInt64 := prime1 + prime2
  second : UInt64 := prime2
  third : UInt64 := 0
  fourth : UInt64 := 0 - prime1
  deriving DecidableEq, Repr

namespace Lanes

/-- Mixes in a stripe. -/
def add (l : Lanes) (bs : Bytes) : Lanes where
  first := mix l.first (word 8 bs)
  second := mix l.second (word 8 (bs.drop 8))
  third := mix l.third (word 8 (bs.drop 16))
  fourth := mix l.fourth (word 8 (bs.drop 24))

/-- Mixes in a number of stripes, and returns the bytes behind them. -/
def addAll (l : Lanes) (bs : Bytes) : Nat → Lanes × Bytes
  | 0 => (l, bs)
  | n + 1 => (l.add bs).addAll (bs.drop 32) n

/-- The four lanes as one word. -/
def merged (l : Lanes) : UInt64 :=
  let sum := rotate l.first 1 + rotate l.second 7 + rotate l.third 12 + rotate l.fourth 18
  [l.first, l.second, l.third, l.fourth].foldl
    (fun h lane => (h ^^^ mix 0 lane) * prime1 + prime4) sum

end Lanes

/-! ## The bytes left over -/

/-- Mixes in words, and returns the bytes behind them. -/
def addWords (h : UInt64) (bs : Bytes) : Nat → UInt64 × Bytes
  | 0 => (h, bs)
  | n + 1 => addWords (rotate (h ^^^ mix 0 (word 8 bs)) 27 * prime1 + prime4) (bs.drop 8) n

/-- Mixes in half a word, if there is one, and returns the bytes behind it. -/
def addHalf (h : UInt64) (bs : Bytes) : UInt64 × Bytes :=
  if bs.length < 4 then (h, bs)
  else (rotate (h ^^^ word 4 bs * prime1) 23 * prime2 + prime3, bs.drop 4)

def addByte (h : UInt64) (b : UInt8) : UInt64 := rotate (h ^^^ b.toUInt64 * prime5) 11 * prime1

/-- Mixes in less than a stripe. -/
def addRest (h : UInt64) (bs : Bytes) : UInt64 :=
  let (h, bs) := addWords h bs (bs.length / 8)
  let (h, bs) := addHalf h bs
  bs.foldl addByte h

/-- Spreads every bit over the result. -/
def spread (h : UInt64) : UInt64 :=
  let h := (h ^^^ (h >>> 33)) * prime2
  let h := (h ^^^ (h >>> 29)) * prime3
  h ^^^ (h >>> 32)

/-- The hash of a byte string. -/
def hash (bs : Bytes) : UInt64 :=
  let (lanes, rest) := Lanes.addAll {} bs (bs.length / 32)
  let start := if bs.length < 32 then prime5 else lanes.merged
  spread (addRest (start + UInt64.ofNat bs.length) rest)

/-- The checksum of a content. -/
def ofContent (content : Bytes) : Nat := (hash content).toNat % UInt32.size

end OneTimeChannel.Compression.Checksum

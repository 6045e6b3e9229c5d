/-
  How content is handed over while it is read.

  Content is asked for by reads into a buffer that grows.  A read offers a room: at first a small
  one, to see whether there is any content, then what is free in the buffer, but no more than a step
  that doubles whenever a read fills it.  A full buffer doubles.

  A read takes content as long as there is some without further input and there is room; content
  that does not fit is handed over by reads of its own.  How much room a read offers does not change
  the content, but decides whether a frame is read in one go (`Stream`).

  Core only.
-/
import OneTimeChannel.Compression.Block

namespace OneTimeChannel.Compression

/-! ## Input -/

/-- The input is cut into pieces of this many bytes. -/
def pieceSize : Nat := 128 * 1024 + 3

/-- Whether a piece of the input ends after byte `start` and no later than byte `stop`. -/
def pieceEnds (start stop : Nat) : Bool := start / pieceSize < stop / pieceSize

/-! ## Reads -/

/-- The buffer and the current read. -/
structure Delivery where
  /-- How much content the buffer holds. -/
  length : Nat := 0
  capacity : Nat := 0
  /-- The most that a read asks for. -/
  step : Nat := 8 * 1024
  /-- How much the current read has taken. -/
  taken : Nat := 0
  deriving DecidableEq, Repr

namespace Delivery

/-- The room of the first read, and what a full buffer grows by at least. -/
def probe : Nat := 32

/-- The room that the current read offers. -/
def room (d : Delivery) : Nat :=
  if d.capacity = 0 then probe else min (d.capacity - d.length) d.step

/-- Makes a full buffer larger. -/
def grow (d : Delivery) : Delivery :=
  if d.length = d.capacity then { d with capacity := max (2 * d.capacity) (d.length + probe) }
  else d

/-- Ends the current read with `n` bytes. -/
def close (d : Delivery) (n : Nat) : Delivery :=
  let d := { d with
    length := d.length + n
    capacity := if d.capacity = 0 then max n 8 else d.capacity
    step := if n = d.step then 2 * d.step else d.step
    taken := 0 }
  d.grow

/-- Ends the current read, which waits for input, if it has taken anything. -/
def pause (d : Delivery) : Delivery := if d.taken = 0 then d else d.close d.taken

/-- Hands over `n` bytes by reads of their own. -/
def flush : Nat → Nat → Delivery → Delivery
  | 0, _, d => d
  | fuel + 1, n, d => if n ≤ d.room then d.close n else flush fuel (n - d.room) (d.close d.room)

/-- Hands over `n` bytes. -/
def deliver (d : Delivery) (n : Nat) : Delivery :=
  let free := d.room - d.taken
  if n ≤ free then { d with taken := d.taken + n } else flush n (n - free) (d.close d.room)

/-- Waits for input if a piece of it ends. -/
def passInput (d : Delivery) (start stop : Nat) : Delivery :=
  if pieceEnds start stop then d.pause else d

/-- Hands over the body of a block, which begins at byte `start` of the input. -/
def passBody (d : Delivery) (start : Nat) : Block → Delivery
  | .stored content =>
    let here := pieceSize - start % pieceSize
    if content.length < here then d.deliver content.length
    else (d.deliver here).pause.deliver (content.length - here)
  | .run _ count => (d.deliver count).passInput start (start + 1)
  | .hollow => d

/-- Hands over the content of blocks, the first of which begins at byte `start` of the input. -/
def passBlocks (d : Delivery) (start : Nat) : List Block → Delivery
  | [] => d
  | b :: rest =>
    ((d.passInput start (start + 3)).passBody (start + 3) b).passBlocks (start + b.length) rest

end Delivery

end OneTimeChannel.Compression

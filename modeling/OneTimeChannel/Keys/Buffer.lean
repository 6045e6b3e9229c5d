/-
  Key buffers: the key material of one end of a channel.

  The sender draws from its outgoing stock in the order of delivery and tells the receiver the id of
  the first quantum; the receiver takes exactly those quanta from its incoming stock.  A key of no
  bytes has the id 0 and costs nothing.

  Whether several keys can be had is answered before any of them is taken.

  Core only.
-/
import OneTimeChannel.Keys.Stock

namespace OneTimeChannel

/-- The key material of one end. -/
structure KeyBuffer where
  /-- The size of a quantum in bytes. -/
  quantum : Nat
  outgoing : KeyStock
  incoming : KeyStock
  quantum_pos : 0 < quantum

namespace KeyBuffer

/-- A buffer without key material; quanta of no bytes are refused. -/
def ofQuantum (quantum : Nat) : Except Fault KeyBuffer :=
  if h : 0 < quantum then
    .ok { quantum, outgoing := .empty, incoming := .empty, quantum_pos := h }
  else .error .emptyQuantum

variable (b : KeyBuffer)

/-! ## Delivery -/

def pushOutgoing (bytes : Bytes) : KeyBuffer :=
  { b with outgoing := b.outgoing.push b.quantum bytes }

def pushIncoming (bytes : Bytes) : KeyBuffer :=
  { b with incoming := b.incoming.push b.quantum bytes }

/-- The buffers of two ends: what one sends with, the other receives with. -/
def pair (quantum : Nat) (aToB bToA : Bytes) : Except Fault (KeyBuffer × KeyBuffer) :=
  match ofQuantum quantum with
  | .error e => .error e
  | .ok b =>
    .ok ((b.pushOutgoing aToB).pushIncoming bToA, (b.pushIncoming aToB).pushOutgoing bToA)

/-- Outgoing bytes in whole quanta. -/
def outgoingLength : Nat := b.outgoing.available b.quantum

/-- Incoming bytes in whole quanta. -/
def incomingLength : Nat := b.incoming.available b.quantum

/-! ## Use -/

/-- Takes `length` bytes in the order of delivery; also returns the id of their first quantum. -/
def fetchOutgoing (length : Nat) : Except KeyError ((UInt32 × Key) × KeyBuffer) :=
  if length = 0 then .ok ((0, .empty), b)
  else match b.outgoing.held.minKey? with
    | none => .error (.exhausted length 0)
    | some first =>
      match b.outgoing.take b.quantum first length with
      | .ok (key, outgoing) => .ok ((first, key), { b with outgoing })
      | .error e => .error e

/-- Takes `length` bytes from the quantum `id` on. -/
def fetchIncoming (id : UInt32) (length : Nat) : Except KeyError (Key × KeyBuffer) :=
  if length = 0 then .ok (.empty, b)
  else match b.incoming.take b.quantum id length with
    | .ok (key, incoming) => .ok (key, { b with incoming })
    | .error e => .error e

/-- What `fetchOutgoing` comes to in memory. -/
def fetchOutgoingInMemory (length : Nat) :
    Except Fault (Except KeyError ((UInt32 × Key) × KeyBuffer)) :=
  KeyStock.inMemory b.quantum length (b.fetchOutgoing length)

/-- What `fetchIncoming` comes to in memory. -/
def fetchIncomingInMemory (id : UInt32) (length : Nat) :
    Except Fault (Except KeyError (Key × KeyBuffer)) :=
  KeyStock.inMemory b.quantum length (b.fetchIncoming id length)

/-- Whether keys of all these lengths can be taken one after the other.  The sum has no bound here; one of
    64 bits comes round only for a list of more than `UInt32.size` lengths, if each of them takes fewer
    quanta than that. -/
def outgoingAvailable (lengths : List Nat) : Bool :=
  lengths.foldr (fun length n => pieceCount b.quantum length + n) 0 ≤ b.outgoing.held.size

/-- Reserves the quanta of all requests, each an id and a length. -/
def reserveIncoming? : List (UInt32 × Nat) → Std.TreeSet UInt32 → Option (Std.TreeSet UInt32)
  | [], taken => some taken
  | (id, length) :: rest, taken =>
    if length = 0 then reserveIncoming? rest taken
    else match b.incoming.reserve? id (KeyStock.quantaFor b.quantum length) taken with
      | some taken => reserveIncoming? rest taken
      | none => none

/-- Whether all requests can be met, none with a quantum of another. -/
def incomingAvailable (requests : List (UInt32 × Nat)) : Bool :=
  (b.reserveIncoming? requests ∅).isSome

/-- A key buffer is a key source, and loses nothing when it refuses a key.  A channel asks for keys as long
    as its messages and tags, which find room in memory (`KeyStock.inMemory_of_add_le`). -/
instance : KeySource KeyBuffer where
  fetchOutgoing b length := KeySource.outcome b (b.fetchOutgoing length)
  fetchIncoming b id length := KeySource.outcome b (b.fetchIncoming id length)
  outgoingAvailable := outgoingAvailable
  incomingAvailable := incomingAvailable

/-- What may be said about a key buffer in public. -/
def description : String :=
  s!"KeyBuffer \x7b quantum: {b.quantum}, outgoing_len: {b.outgoingLength}, " ++
    s!"incoming_len: {b.incomingLength}, .. \x7d"

end KeyBuffer

end OneTimeChannel

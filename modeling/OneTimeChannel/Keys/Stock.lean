/-
  The key material of one direction.

  Key bytes arrive as a stream and are cut into quanta of one size, which get the ids 1, 2, 3, … in
  the order of the stream; what does not fill a quantum yet waits (`pending`).  Ids have 32 bits, and
  counting them steps over 0, which stands for "no key".

  Keys are taken as runs of quanta with consecutive ids, all of them or none.  A quantum is used
  once: taking it removes it, and the bytes of the last quantum beyond the key are lost with it.

  A key is gathered in one piece of memory, and such a piece has at most `maxRoom` bytes.  `take` does
  not look at memory.  What is handed out in memory is what `take` hands out if there is room for it,
  and a fault otherwise (`inMemory`).  The two are the same for every key that is shorter than memory
  by a quantum (`inMemory_of_add_le`), so for every key that a message can ask for.

  Core only.
-/
import Std.Data.TreeMap
import Std.Data.TreeSet
import OneTimeChannel.Keys.Source

namespace OneTimeChannel

/-- The quanta of one direction. -/
structure KeyStock where
  /-- The quanta that were delivered and not used yet, by id. -/
  held : Std.TreeMap UInt32 Key
  /-- The bytes that do not fill a quantum yet. -/
  pending : Bytes
  /-- The id of the next quantum. -/
  nextId : UInt32

namespace KeyStock

/-- Nothing was delivered yet. -/
def empty : KeyStock where
  held := ∅
  pending := []
  nextId := 1

/-! ## Delivery -/

/-- The id after `id`. -/
def idAfter (id : UInt32) : UInt32 := if id + 1 = 0 then 1 else id + 1

/-- Adds a quantum under the next id. -/
def deliver (s : KeyStock) (quantum : Bytes) : KeyStock :=
  { s with held := s.held.insert s.nextId ⟨quantum⟩, nextId := idAfter s.nextId }

/-- Cuts `count` quanta off the stream; what is left waits. -/
def deliverAll (quantum : Nat) : Nat → KeyStock → Bytes → KeyStock
  | 0, s, stream => { s with pending := stream }
  | count + 1, s, stream =>
    deliverAll quantum count (s.deliver (stream.take quantum)) (stream.drop quantum)

/-- Appends bytes to the stream. -/
def push (s : KeyStock) (quantum : Nat) (bytes : Bytes) : KeyStock :=
  let stream := s.pending ++ bytes
  deliverAll quantum (stream.length / quantum) s stream

/-! ## Use -/

/-- How many quanta a key of `length` bytes takes, counted in 32 bits. -/
def quantaFor (quantum length : Nat) : Nat := pieceCount quantum length % UInt32.size

/-- The `count` ids from `first` on. -/
def idsFrom (first : UInt32) (count : Nat) : List UInt32 :=
  (List.range count).map fun i => first + UInt32.ofNat i

/-- The first of the `count` ids from `first` on that is not held. -/
def missing? (s : KeyStock) (first : UInt32) : Nat → Option UInt32
  | 0 => none
  | count + 1 => if s.held.contains first then s.missing? (first + 1) count else some first

/-- The bytes in whole quanta. -/
def available (s : KeyStock) (quantum : Nat) : Nat := s.held.size * quantum

/-- Why the quantum of an id that is not held cannot be used.  Ids from the next one on may still be
    delivered, unless a later id is held already. -/
def refusal (s : KeyStock) (quantum : Nat) (id : UInt32) (length : Nat) : KeyError :=
  if (s.held.maxKey?).any (id ≤ ·) ∨ id < s.nextId then .unknown id
  else .exhausted length (s.available quantum)

/-- The key of `length` bytes that starts with the quantum `first`. -/
def take (s : KeyStock) (quantum : Nat) (first : UInt32) (length : Nat) :
    Except KeyError (Key × KeyStock) :=
  let count := quantaFor quantum length
  match s.missing? first count with
  | some id => .error (s.refusal quantum id length)
  | none =>
    let ids := idsFrom first count
    let bytes := ids.flatMap fun id => (s.held.getD id .empty).bytes
    .ok (⟨bytes.take length⟩, { s with held := ids.foldl (·.erase ·) s.held })

/-- The bytes that a key of `length` bytes is gathered in: those of all its quanta, counted in 64
    bits. -/
def roomFor (quantum length : Nat) : Nat := pieceCount quantum length * quantum % UInt64.size

/-- The most bytes that one piece of memory has. -/
def maxRoom : Nat := 9223372036854775807

/-- What is handed out of a key of `length` bytes in memory.  Room is made when all its quanta are known
    to be held, so that a refusal needs none. -/
def inMemory {α : Type} (quantum length : Nat) : Except KeyError α → Except Fault (Except KeyError α)
  | .error e => .ok (.error e)
  | .ok taken =>
    if roomFor quantum length ≤ maxRoom then .ok (.ok taken) else .error .capacityOverflow

theorem inMemory_of_le {α : Type} {quantum length : Nat} (h : roomFor quantum length ≤ maxRoom)
    (r : Except KeyError α) : inMemory quantum length r = .ok r := by
  cases r with
  | error e => rfl
  | ok taken => exact if_pos h

/-- A key that is shorter than memory by a quantum finds room. -/
theorem inMemory_of_add_le {α : Type} {quantum length : Nat} (hq : 0 < quantum)
    (h : length + quantum ≤ maxRoom) (r : Except KeyError α) : inMemory quantum length r = .ok r := by
  have hpieces : pieceCount quantum length * quantum ≤ length + quantum - 1 := Nat.div_mul_le_self _ _
  have hroom : roomFor quantum length ≤ pieceCount quantum length * quantum := Nat.mod_le _ _
  exact inMemory_of_le (by omega) r

theorem inMemory_eq_ok_ok_iff {α : Type} {quantum length : Nat} {r : Except KeyError α} {taken : α} :
    inMemory quantum length r = .ok (.ok taken)
      ↔ r = .ok taken ∧ roomFor quantum length ≤ maxRoom := by
  cases r with
  | error e => simp [inMemory]
  | ok taken' =>
    rw [inMemory]
    split
    · next h => simp [h]
    · next h => simp [h]

/-- Marks the `count` ids from `first` on as spoken for, if all are held and none was before. -/
def reserve? (s : KeyStock) (first : UInt32) :
    Nat → Std.TreeSet UInt32 → Option (Std.TreeSet UInt32)
  | 0, taken => some taken
  | count + 1, taken =>
    if s.held.contains first && !taken.contains first then
      s.reserve? (first + 1) count (taken.insert first)
    else none

end KeyStock

end OneTimeChannel

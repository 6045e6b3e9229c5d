/-
  Byte streams, as the list of what they will do.

  A reader is the list of its deliveries and a writer the list of its answers to writes, so an
  unreliable stream is a value: short reads and writes, interruptions and failures are entries of
  the list, in the order in which the calls will meet them.  A reader at the end of its list reports
  the end of the stream; a writer at the end of its list takes everything.

  Every read either uses up part of the list or finds it empty (`Reader.weight_read_lt`), which is
  what ends the loops that read or write until they are done.

  Core only.
-/
import OneTimeChannel.Bytes

namespace OneTimeChannel

/-- How a read or a write fails. -/
inductive StreamError where
  /-- The call did nothing and can be repeated. -/
  | interrupted
  | broken
  /-- The stream ended where more was expected. -/
  | endOfStream
  /-- The stream takes no more bytes. -/
  | refused
  deriving DecidableEq, Repr

namespace StreamError

def message : StreamError → String
  | interrupted => "interrupted"
  | broken => "broken"
  | endOfStream => "stream ended inside a length-prefixed record"
  | refused => "stream refused length-prefixed record"

end StreamError

/-! ## Reading -/

/-- What one read meets. -/
inductive Delivery where
  /-- Bytes, of which a read takes as many as it asks for. -/
  | data (bs : Bytes)
  | failure (e : StreamError)
  deriving DecidableEq, Repr

/-- A stream to read from. -/
structure Reader where
  deliveries : List Delivery
  deriving DecidableEq, Repr

namespace Reader

/-- The stream that delivers a byte string at once. -/
def ofBytes (bs : Bytes) : Reader := ⟨[.data bs]⟩

/-- The bytes of a read for at most `n` bytes, no bytes at the end of the stream, and what is left
    of the stream. -/
def read (r : Reader) (n : Nat) : Except StreamError Bytes × Reader :=
  match r.deliveries with
  | [] => (.ok [], r)
  | .failure e :: rest => (.error e, ⟨rest⟩)
  | .data bs :: rest =>
    if bs.length ≤ n then (.ok bs, ⟨rest⟩)
    else (.ok (bs.take n), ⟨.data (bs.drop n) :: rest⟩)

/-- The bytes of a delivery, and one for the delivery itself. -/
def deliveryWeight : Delivery → Nat
  | .data bs => bs.length + 1
  | .failure _ => 1

/-- How much the stream can still do. -/
def weight (r : Reader) : Nat := r.deliveries.foldr (fun d n => deliveryWeight d + n) 0

/-- A read that is no end of the stream uses it up. -/
theorem weight_read_lt {r r' : Reader} {n : Nat} {res : Except StreamError Bytes}
    (h : r.read n = (res, r')) (hres : res ≠ .ok []) : r'.weight < r.weight := by
  unfold read at h
  split at h
  · obtain ⟨rfl, rfl⟩ := Prod.mk.inj h
    exact absurd rfl hres
  · next e rest hr =>
    obtain ⟨rfl, rfl⟩ := Prod.mk.inj h
    simp [weight, hr, deliveryWeight]
  · next bs rest hr =>
    split at h
    · obtain ⟨rfl, rfl⟩ := Prod.mk.inj h
      simp [weight, hr, deliveryWeight]
    · next hlen =>
      obtain ⟨rfl, rfl⟩ := Prod.mk.inj h
      have hn : n ≠ 0 := fun e => hres (by simp [e])
      simp only [weight, hr, List.foldr_cons, deliveryWeight, List.length_drop]
      omega

/-- A read delivers at most as many bytes as it asks for. -/
theorem length_read_le {r r' : Reader} {n : Nat} {bs : Bytes}
    (h : r.read n = (.ok bs, r')) : bs.length ≤ n := by
  unfold read at h
  split at h
  · cases h
    simp
  · cases h
  · split at h
    · cases h
      assumption
    · cases h
      simp only [List.length_take]
      omega

end Reader

/-! ## Writing -/

/-- What one write meets. -/
inductive Acceptance where
  /-- At most so many bytes are taken. -/
  | upTo (n : Nat)
  | failure (e : StreamError)
  deriving DecidableEq, Repr

/-- A stream to write to. -/
structure Writer where
  acceptances : List Acceptance
  /-- Everything taken so far. -/
  written : Bytes
  deriving DecidableEq, Repr

namespace Writer

/-- How many of the offered bytes are taken, and the stream afterwards. -/
def write (w : Writer) (bs : Bytes) : Except StreamError Nat × Writer :=
  match w.acceptances with
  | [] => (.ok bs.length, { w with written := w.written ++ bs })
  | .failure e :: rest => (.error e, { w with acceptances := rest })
  | .upTo n :: rest =>
    (.ok (min n bs.length), { acceptances := rest, written := w.written ++ bs.take n })

/-- A write takes at most what it is offered. -/
theorem taken_le {w w' : Writer} {bs : Bytes} {n : Nat}
    (h : w.write bs = (.ok n, w')) : n ≤ bs.length := by
  unfold write at h
  split at h
  · cases h
    exact Nat.le_refl _
  · cases h
  · cases h
    exact Nat.min_le_right _ _

/-- A write uses up an answer, or takes everything. -/
theorem length_acceptances_write {w w' : Writer} {bs : Bytes} {res : Except StreamError Nat}
    (h : w.write bs = (res, w')) :
    w'.acceptances.length + 1 = w.acceptances.length ∨
      res = .ok bs.length ∧ w'.acceptances = w.acceptances := by
  unfold write at h
  split at h
  · next hw =>
    obtain ⟨rfl, rfl⟩ := Prod.mk.inj h
    exact Or.inr ⟨rfl, hw.symm ▸ hw⟩
  · next e rest hw =>
    obtain ⟨rfl, rfl⟩ := Prod.mk.inj h
    exact Or.inl (by simp [hw])
  · next n rest hw =>
    obtain ⟨rfl, rfl⟩ := Prod.mk.inj h
    exact Or.inl (by simp [hw])

end Writer

end OneTimeChannel

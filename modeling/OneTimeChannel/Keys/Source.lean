/-
  Where a channel gets its keys.

  A key source hands out keys for both directions and can say beforehand whether several keys can be
  had one after the other.  A step returns the source as it is afterwards, also when it fails, so a
  source may use up material for nothing; `KeyBuffer` does not.

  Core only.
-/
import OneTimeChannel.Key

namespace OneTimeChannel

/-- Why a key is not handed out. -/
inductive KeyError where
  /-- The material may still arrive. -/
  | exhausted (needed available : Nat)
  /-- The quantum of this id was used before, or is no quantum at all. -/
  | unknown (id : UInt32)
  deriving DecidableEq, Repr

def KeyError.message : KeyError → String
  | exhausted needed available =>
    s!"not enough key material: {needed} bytes needed, {available} available"
  | unknown id => s!"unknown key id {id}"

/-- The keys of one end of a channel. -/
class KeySource (K : Type) where
  /-- A key of the given length to send with, and the id by which the other end finds it. -/
  fetchOutgoing : K → Nat → Except KeyError (UInt32 × Key) × K
  /-- The key of an id and a length that a message was sent with. -/
  fetchIncoming : K → UInt32 → Nat → Except KeyError Key × K
  /-- Whether keys of all these lengths can be fetched, one after the other. -/
  outgoingAvailable : K → List Nat → Bool
  /-- Whether the keys of all these ids and lengths can be fetched, one after the other. -/
  incomingAvailable : K → List (UInt32 × Nat) → Bool

namespace KeySource

variable {K α : Type}

/-- The outcome of a step that leaves the source alone where it fails. -/
def outcome (k : K) : Except KeyError (α × K) → Except KeyError α × K
  | .ok (a, k') => (.ok a, k')
  | .error e => (.error e, k)

@[simp] theorem outcome_ok (k k' : K) (a : α) : outcome k (.ok (a, k')) = (.ok a, k') := rfl

@[simp] theorem outcome_error (k : K) (e : KeyError) :
    outcome (α := α) k (.error e) = (.error e, k) := rfl

theorem eq_of_outcome_eq_error {k k' : K} {e : KeyError} {r : Except KeyError (α × K)}
    (h : outcome k r = (.error e, k')) : k' = k := by
  rcases r with _ | ⟨a, k₁⟩
  · cases h
    rfl
  · cases h

theorem eq_of_outcome_eq_ok {k k' : K} {a : α} {r : Except KeyError (α × K)}
    (h : outcome k r = (.ok a, k')) : r = .ok (a, k') := by
  rcases r with _ | ⟨a, k₁⟩
  · cases h
  · cases h
    rfl

end KeySource

end OneTimeChannel

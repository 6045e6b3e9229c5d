/-
  The algorithms a crypto context can run.

  * `null` takes in anything and produces nothing;
  * `pad`, written `xor`, keeps the data and masks it with the final key, one key byte for each;
  * `evaluationHash`, written `evhash`, produces a tag (see `EvaluationHash`).

  An algorithm value is the algorithm together with what it holds of the data so far.  The
  functions below are its sizes and its steps; the rules that all algorithms share (finishing
  once, checking the final key) are those of `Context`.

  Core only.
-/
import OneTimeChannel.Cipher.EvaluationHash

namespace OneTimeChannel

open Gf2 (ChunkSize)

/-- An algorithm and its state. -/
inductive Algorithm where
  | null
  /-- The data that waits for the final key. -/
  | pad (data : Bytes)
  | evaluationHash (h : EvaluationHash)

/-- Why bytes are no state of an algorithm. -/
inductive StateFlaw where
  | nullHasState
  | notOneElement
  /-- A copy made from the description is refused. -/
  | notRecreated
  deriving DecidableEq, Repr

def StateFlaw.message : StateFlaw → String
  | nullHasState => "null has no state"
  | notOneElement => "evhash state must be one field element"
  | notRecreated => "scheme does not recreate the context"

namespace Algorithm

def name : Algorithm → String
  | null => "null"
  | pad _ => "xor"
  | evaluationHash _ => "evhash"

/-- The variant that tells algorithms of one name apart. -/
def variant : Algorithm → Option UInt32
  | null => none
  | pad _ => none
  | evaluationHash h => some (UInt32.ofNat h.width.bits)

def isNull : Algorithm → Bool
  | null => true
  | _ => false

def initKey : Algorithm → Key
  | null => .empty
  | pad _ => .empty
  | evaluationHash h => h.initKey

/-! ## Sizes in bytes -/

def initKeySize : Algorithm → Nat
  | null => 0
  | pad _ => 0
  | evaluationHash h => h.bytes

/-- How long a final key has to be. -/
def finalKeySize : Algorithm → Nat
  | null => 0
  | pad data => data.length
  | evaluationHash h => h.bytes

/-- How long the result will be. -/
def resultSize : Algorithm → Nat
  | null => 0
  | pad data => data.length
  | evaluationHash h => h.bytes

/-! ## Properties of the algorithm alone -/

def isCloneable : Algorithm → Bool
  | null => true
  | pad _ => true
  | evaluationHash _ => true

/-- Whether one init key serves for many messages. -/
def reusesInitKey : Algorithm → Bool
  | null => true
  | pad _ => false
  | evaluationHash _ => true

/-- Whether every byte of data uses up a byte of the final key. -/
def consumesKeyPerByte : Algorithm → Bool
  | null => false
  | pad _ => true
  | evaluationHash _ => false

/-! ## Steps -/

/-- Whether the algorithm can finish with a key: any key will do for `null`, a pad ignores what it
    does not need, and a tag is masked in full. -/
def acceptsFinalKey (a : Algorithm) (key : Key) : Bool :=
  match a with
  | null => true
  | pad data => data.length ≤ key.length
  | evaluationHash h => key.length == h.bytes

/-- How many blocks the data makes: bytes for a pad, field elements for a hash. -/
def blockCount (a : Algorithm) (data : Bytes) : Nat :=
  match a with
  | null => 0
  | pad _ => data.length
  | evaluationHash h => h.blockCount data

/-- Takes in data. -/
def absorb (a : Algorithm) (data : Bytes) : Except Fault Algorithm :=
  match a with
  | null => .ok null
  | pad held => .ok (pad (held ++ data))
  | evaluationHash h =>
    match h.absorb data with
    | .ok h' => .ok (evaluationHash h')
    | .error e => .error e

/-- The result under a final key, and the algorithm with its state forgotten. -/
def finish (a : Algorithm) (key : Key) : Except Fault (Algorithm × Bytes) :=
  match a with
  | null => .ok (null, [])
  | pad data =>
    if key.length < data.length then .error .sliceOutOfRange
    else match mask? data (key.bytes.take data.length) with
      | some out => .ok (pad [], out)
      | none => .error .unequalLengths
  | evaluationHash h =>
    match h.finish key with
    | .ok (h', out) => .ok (evaluationHash h', out)
    | .error e => .error e

/-! ## State -/

/-- The state as bytes. -/
def state : Algorithm → Bytes
  | null => []
  | pad data => data
  | evaluationHash h => h.tag.toBytes

/-- The algorithm with the given state. -/
def withState (a : Algorithm) (state : Bytes) : Except StateFlaw Algorithm :=
  match a with
  | null => if state = [] then .ok null else .error .nullHasState
  | pad _ => .ok (pad state)
  | evaluationHash h =>
    match h.withTag? state with
    | some h' => .ok (evaluationHash h')
    | none => .error .notOneElement

/-- A copy, for the algorithms that can make one themselves. -/
def duplicate? : Algorithm → Option Algorithm
  | null => none
  | pad _ => none
  | evaluationHash h => some (evaluationHash h)

/-! ## Description -/

def chunkName : ChunkSize → String
  | .single => "SingleStep"
  | .double => "TwoStep"

/-- The algorithm as it stands in the description of a context; what it holds is not shown. -/
def description : Algorithm → String
  | null => "Null(Null)"
  | pad _ => "Xor(Xor \x7b data: Zeroizing \x7b .. \x7d \x7d)"
  | evaluationHash h =>
    s!"EvHash(EvHash \x7b bits: {h.width.bits}, precalculation: {chunkName h.alpha.chunk}, .. \x7d)"

end Algorithm

end OneTimeChannel

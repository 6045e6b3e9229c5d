/-
  Crypto contexts.

  A context is one algorithm at work: data goes in by `add`, and `finalize` turns it into the
  result, once.  A refused step has no effect, since it returns no context.  `scheme` describes a
  context so that one with the same future can be made from the description; `resume` continues
  from such a description, and is the only way back after `finalize`.

  Blocks are counted in 64 bits.  The count comes round at 2 ^ 64 blocks and nothing stops there, as in
  a release build; a debug build would.

  Core only.
-/
import OneTimeChannel.Cipher.Algorithm
import OneTimeChannel.Log
import OneTimeChannel.Scheme

namespace OneTimeChannel

open Gf2 (ChunkSize)

/-- A crypto context. -/
structure Context where
  algorithm : Algorithm
  /-- How many blocks were added, modulo 2 ^ 64. -/
  blocks : UInt64 := 0
  finalized : Bool := false

namespace Context

/-! ## Errors -/

/-- Why a step of a context is refused. -/
inductive Error where
  | finalized
  | wrongKey
  | notCloneable
  | invalidState (flaw : StateFlaw)
  /-- The scheme describes another algorithm, variant or init key. -/
  | incompatible
  /-- The algorithm was given what the context should have kept from it. -/
  | broken (fault : Fault)
  deriving DecidableEq, Repr

def Error.message : Error → String
  | finalized => "context has already been finalized"
  | wrongKey => "final key is not valid for this context"
  | notCloneable => "context cannot be cloned"
  | invalidState flaw => s!"invalid context state: {flaw.message}"
  | incompatible => "scheme is incompatible with this context"
  | broken _ => "broken precondition"

/-- Why no context is made from a scheme. -/
inductive CreationError where
  | unknownAlgorithm (name : String)
  | scheme (e : Scheme.Error)
  | initKey (algorithm : String) (length : Nat)
  | context (e : Error)
  deriving DecidableEq

namespace CreationError

/-- The outermost line of the error. -/
def message : CreationError → String
  | unknownAlgorithm name => s!"unknown crypto algorithm {Text.quoted name}"
  | scheme e => e.message
  | initKey algorithm length => s!"init key of {length} bytes is not usable for {algorithm}"
  | context _ => "context initialization failed"

/-- The error and what caused it. -/
def causes : CreationError → List String
  | context e => [message (context e), e.message]
  | e => [message e]

end CreationError

/-! ## What can be asked of a context -/

variable (c : Context)

def name : String := c.algorithm.name

def variant : Option UInt32 := c.algorithm.variant

def initKey : Key := c.algorithm.initKey

def initKeySize : Nat := c.algorithm.initKeySize

def finalKeySize : Nat := c.algorithm.finalKeySize

def resultSize : Nat := c.algorithm.resultSize

def isCloneable : Bool := c.algorithm.isCloneable

def reusesInitKey : Bool := c.algorithm.reusesInitKey

def consumesKeyPerByte : Bool := c.algorithm.consumesKeyPerByte

def isNull : Bool := c.algorithm.isNull

def acceptsFinalKey (key : Key) : Bool := c.algorithm.acceptsFinalKey key

def state : Bytes := c.algorithm.state

/-- The scheme of the context.  The state is left out where it says nothing: no block was added and
    it is all zeros. -/
def scheme : Scheme where
  algorithm := c.name
  variant := c.variant
  initKey := c.initKey
  state := if c.blocks = 0 ∧ c.state.all (· == 0) then [] else c.state
  blocks := c.blocks

/-- What may be said about the context in public. -/
def description : String :=
  s!"Context \x7b algorithm: {c.algorithm.description}, init_key: {c.initKey.description}, " ++
    s!"blocks: {c.blocks}, finalized: {c.finalized} \x7d"

/-! ## Steps -/

/-- Takes in data. -/
def add (data : Bytes) : Except Error Context :=
  if c.finalized then .error .finalized
  else match c.algorithm.absorb data with
    | .ok algorithm =>
      .ok { c with
        algorithm
        blocks := c.blocks + UInt64.ofNat (c.algorithm.blockCount data) }
    | .error fault => .error (.broken fault)

/-- The result under a final key; afterwards the context is finalized. -/
def finalize (key : Key) : Except Error (Context × Bytes) :=
  if c.finalized then .error .finalized
  else if c.acceptsFinalKey key then
    match c.algorithm.finish key with
    | .ok (algorithm, out) => .ok ({ c with algorithm, finalized := true }, out)
    | .error fault => .error (.broken fault)
  else .error .wrongKey

/-- Replaces the state of the algorithm and nothing else. -/
def setState (state : Bytes) : Except Error Context :=
  match c.algorithm.withState state with
  | .ok algorithm => .ok { c with algorithm }
  | .error flaw => .error (.invalidState flaw)

/-- Whether a scheme describes the algorithm, variant and init key of the context.  A scheme
    without a variant fits every variant. -/
def isCompatible (s : Scheme) : Bool :=
  s.algorithm == c.name
    && (match s.variant with
      | none => true
      | some v => c.variant == some v)
    && sameBytes s.initKey.bytes c.initKey.bytes

/-- Continues from the state in a scheme. -/
def resume (s : Scheme) : Except Error Context :=
  if c.isCompatible s then
    match c.setState s.state with
    | .ok c' => .ok { c' with blocks := s.blocks, finalized := false }
    | .error e => .error e
  else .error .incompatible

/-! ## Creation -/

/-- The algorithm that a scheme names, without its state. -/
def algorithmOf (s : Scheme) (chunk : ChunkSize) : Except CreationError Algorithm :=
  let badKey : CreationError := .initKey s.name s.initKey.length
  let unknown : CreationError := .unknownAlgorithm s.name
  match s.algorithm, s.variant with
  | "null", none => if s.initKey.isEmpty then .ok .null else .error badKey
  | "xor", none => if s.initKey.isEmpty then .ok (.pad []) else .error badKey
  | "evhash", variant =>
    let hash := match EvaluationHash.ofKey? s.initKey chunk with
      | some h => .ok (.evaluationHash h)
      | none => .error badKey
    match variant with
    | none => hash
    | some bits =>
      if (Gf2.Width.ofBits? bits.toNat).isNone then .error unknown
      else if s.initKey.length * 8 ≠ bits.toNat then .error badKey
      else hash
  | _, _ => .error unknown

/-- The context of a scheme, with tables of the given size where the algorithm uses them. -/
def ofSchemeWith (chunk : ChunkSize) (s : Scheme) : Except CreationError Context :=
  match algorithmOf s chunk with
  | .error e => .error e
  | .ok algorithm =>
    if s.state = [] ∧ s.blocks = 0 then .ok { algorithm }
    else match algorithm.withState s.state with
      | .ok algorithm => .ok { algorithm, blocks := s.blocks }
      | .error flaw => .error (.context (.invalidState flaw))

def ofScheme (s : Scheme) : Except CreationError Context := ofSchemeWith .single s

/-- The context that a text describes. -/
def create (text : String) : Except CreationError Context :=
  match Scheme.parse text with
  | .ok s => ofScheme s
  | .error e => .error (.scheme e)

/-- A new context for an algorithm, given by name and variant, under an init key. -/
def createWithKey (algorithm : String) (initKey : Key) : Except CreationError Context :=
  if algorithm.toList.contains ':' then .error (.scheme (.ofText algorithm .fieldsInName))
  else match Scheme.parse algorithm with
    | .ok s => ofScheme { s with initKey }
    | .error e => .error (.scheme e)

/-- Whether a text describes a context. -/
def isValidScheme (text : String) : Bool := (create text).isOk

/-! ## Copies -/

/-- Why a context has no copy. -/
inductive CloneError where
  | notCloneable
  | notRecreated (name : String) (cause : CreationError)
  deriving DecidableEq

/-- The refusal that the caller of `copy` sees. -/
def CloneError.toError : CloneError → Error
  | notCloneable => .notCloneable
  | notRecreated _ _ => .invalidState .notRecreated

/-- The lines that go to the log. -/
def CloneError.log : CloneError → List LogLine
  | notCloneable => []
  | notRecreated name cause =>
    [.error s!"recreating {name} from its scheme failed: {cause.message}"]

/-- An independent context in the same state.  An algorithm that cannot copy itself is made anew
    from the scheme. -/
def copy : Except CloneError Context :=
  if c.isCloneable then
    match c.algorithm.duplicate? with
    | some algorithm => .ok { c with algorithm }
    | none =>
      match ofScheme c.scheme with
      | .ok c' => .ok { c' with finalized := c.finalized }
      | .error e => .error (.notRecreated c.name e)
  else .error .notCloneable

end Context

end OneTimeChannel
